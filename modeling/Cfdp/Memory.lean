import Cfdp.Files

/-!
# Limited memory

`handle_data` hands `total_packets` to `PacketList::init`, which allocates a node for each
packet, once it is the count that the record gives the chunk; the record itself may give
any. Here the handlers run with room for a list of `room` packets: a longer one ends the
process with `std::bad_alloc`. Where the lists have room they run as the handlers do, which
leave memory out.
-/

namespace Cfdp

open Crash Prog Machine

/-- `std::bad_alloc`, which ends the process as every exception does. -/
def badAlloc : RuntimeError := ⟨"std::bad_alloc", []⟩

/-- `PacketList::init`, with room for the slots and nodes of `room` packets, their bytes and the
chunk assembled from them. -/
def PacketList.tryInit (room : Nat) (p : PacketList) (totalPackets : UInt32) : Option PacketList :=
  if totalPackets.toNat ≤ room then some (p.init totalPackets) else none

/-- A packet list is made for the PDU. -/
def CfdpReceiver.allocates (rx : CfdpReceiver) (dpdu : DataPdu) : Bool :=
  rx.acceptsData dpdu && (!rx.state.isDone dpdu.chunkIndex && dpdu.chunkIndex != rx.currentChunkIndex)

namespace Limited

section

variable (room : Nat) (env : Env) (o : Oracle)

def switchChunk (ci totalPackets : UInt32) : M Unit := do
  let w ← get
  if ci != w.rx.currentChunkIndex then
    nakUnfinished
    modify fun w => w.setRx fun rx => { rx with packetList := rx.packetList.clear }
    let w ← get
    match w.rx.packetList.tryInit room totalPackets with
    | none => throw badAlloc
    | some packetList =>
      modify fun w => w.setRx fun rx => { rx with packetList, currentChunkIndex := ci }
  else
    return ()

def handleData (dpdu : DataPdu) : M Unit := do
  let w ← get
  if !w.rx.acceptsData dpdu then
    return ()
  else
    modify fun w => w.setRx (CfdpReceiver.see dpdu.chunkIndex)
    if w.rx.state.isDone dpdu.chunkIndex then
      if dpdu.packetIndex == 0 then
        sendAck dpdu.chunkIndex
      else
        return ()
    else
      switchChunk room dpdu.chunkIndex dpdu.totalPackets
      modify fun w => w.setRx (CfdpReceiver.store dpdu)
      let w ← get
      if w.rx.packetList.isComplete then
        flushChunk env o dpdu.chunkIndex
      else
        return ()

def onPduReceived (raw : Bytes) : M Unit :=
  match decodePdu raw with
  | some (.data dpdu) => handleData room env o dpdu
  | _ => Cfdp.onPduReceived env o raw

/-- A step of a receiver whose memory is limited. -/
def step : Node → Action → Option (List Moment × Node)
  | .up w, .recv raw o cut =>
    (Node.finish (onPduReceived room env o raw w) cut).map fun r =>
      (w.acceptance raw ++ r.1.map .passed, r.2)
  | n, a => Node.step env n a

/-- The handler throws. -/
def Throws : Node → Action → Prop
  | .up w, .recv raw o _ => ∃ e, (onPduReceived room env o raw w).result = .error e
  | .down disk log, .boot garbage o _ => ∃ e,
      (onBoot env o ⟨.construct garbage, disk, log⟩).result = .error e
  | _, _ => False

end

section

variable {room : Nat} {env : Env} {o : Oracle} {w : World} {d : DataPdu} {raw : Bytes}

/-- A list that has room is made. -/
theorem switchChunk_eq {ci totalPackets : UInt32}
    (h : ci ≠ w.rx.currentChunkIndex → totalPackets.toNat ≤ room) :
    switchChunk room ci totalPackets w = Cfdp.switchChunk ci totalPackets w := by
  unfold switchChunk Cfdp.switchChunk
  rw [get_bind, get_bind]
  split
  · next hne =>
    refine bind_congr (wp_nakUnfinished fun w' => ?_)
    have hfits : PacketList.tryInit room w'.rx.packetList.clear totalPackets =
        some (w'.rx.packetList.clear.init totalPackets) := if_pos (h (by simpa using hne))
    show (match PacketList.tryInit room w'.rx.packetList.clear totalPackets with
      | none => _
      | some _ => _ : M Unit) _ = _
    rw [hfits]
    rfl
  · rfl

theorem handleData_eq (h : w.rx.allocates d = true → d.totalPackets.toNat ≤ room) :
    handleData room env o d w = Cfdp.handleData env o d w := by
  unfold handleData Cfdp.handleData
  rw [get_bind, get_bind]
  split
  · rfl
  · next ha =>
    refine bind_congr ((wp_modify _).mpr ?_)
    split
    · rfl
    · next hd =>
      refine bind_left (switchChunk_eq fun hne => h ?_) _
      rw [World.setRx_rx, CfdpReceiver.see_currentChunkIndex] at hne
      simp only [Bool.not_eq_true', Bool.not_eq_false, Bool.not_eq_true] at ha hd
      simp only [CfdpReceiver.allocates, ha, hd, Bool.not_false, Bool.true_and, bne_iff_ne]
      exact hne

/-- **Where there is room the receiver runs as the one whose memory is not limited.** -/
theorem onPduReceived_eq (h : ∀ d, decodePdu raw = some (.data d) → w.rx.allocates d = true →
    d.totalPackets.toNat ≤ room) : onPduReceived room env o raw w = Cfdp.onPduReceived env o raw w := by
  unfold onPduReceived
  cases hd : decodePdu raw with
  | none => rfl
  | some pdu =>
    cases pdu with
    | data d =>
      show handleData room env o d w = _
      rw [handleData_eq (h d hd), Cfdp.onPduReceived, hd]
    | metadata _ => rfl
    | eof _ => rfl
    | resumeQuery _ => rfl

/-- **A list without room ends the process.** -/
theorem onPduReceived_full (hd : decodePdu raw = some (.data d)) (ha : w.rx.allocates d = true)
    (hroom : room < d.totalPackets.toNat) :
    (onPduReceived room env o raw w).result = .error badAlloc := by
  simp only [CfdpReceiver.allocates, Bool.and_eq_true, Bool.not_eq_true'] at ha
  obtain ⟨hacc, hopen, hne⟩ := ha
  have hspec : wp (onPduReceived room env o raw) (fun _ => True) (fun _ _ => False)
      (fun e _ => e = badAlloc) w := by
    rw [onPduReceived, hd]
    show wp (handleData room env o d) _ _ _ w
    rw [handleData, wp_bind, wp_get, wp_ite]
    refine ⟨fun hno => absurd hno (by simp [hacc]), fun _ => ?_⟩
    rw [wp_bind, wp_modify, wp_ite]
    refine ⟨fun hdone => absurd hdone (by simp [hopen]), fun _ => ?_⟩
    rw [wp_bind, switchChunk, wp_bind, wp_get, wp_ite, World.setRx_rx, CfdpReceiver.see_currentChunkIndex]
    refine ⟨fun _ => ?_, fun hno => absurd hne hno⟩
    rw [wp_bind]
    refine wp_nakUnfinished fun w' => ?_
    rw [wp_bind, wp_modify, wp_bind, wp_get]
    have hfull : PacketList.tryInit room (w'.setRx fun rx =>
        { rx with packetList := rx.packetList.clear }).rx.packetList d.totalPackets = none :=
      if_neg (Nat.not_le.mpr hroom)
    rw [hfull]
    exact (wp_throw _).mpr rfl
  obtain ⟨e, he, rfl⟩ := hspec.throws
  exact he

end

end Limited

end Cfdp
