import Cfdp.Geometry

/-!
# No handler faults

The handlers again, with a test at each place where the C++ code relies on the
receiver's fields: the divisions by `packet_size`, the write to
`chunk_done[chunk_index]`, and the chunk acknowledgements, whose index must not be
the sentinel of the final one. A test that fails is a `Fault`. In every reachable
state the tested handlers run as the handlers do.
-/

namespace Cfdp

open Crash Prog Machine

inductive Fault where
  | divisionByZero
  | outOfRange
  | ackSentinel

/-- Programs that throw or fault. -/
abbrev Tested := Prog World (RuntimeError ⊕ Fault)

/-- A program without tests. -/
def untested {α : Type} (p : M α) : Tested α := p.mapError Sum.inl

def require (c : Bool) (fault : Fault) : Tested Unit :=
  if c then return () else throw (.inr fault)

namespace Tested

/-- Before a division by `packet_size`. -/
def division : Tested Unit := do
  let w ← get
  require (w.rx.state.packetSize != 0) .divisionByZero

/-- Before an access to `chunk_done[ci]`. -/
def index (ci : UInt32) : Tested Unit := do
  let w ← get
  require (decide (ci.toNat < w.rx.state.chunkDone.length)) .outOfRange

/-- The acknowledgement of a chunk. -/
def ackChunk (ci : UInt32) : Tested Unit := do
  require (ci != uint32Max) .ackSentinel
  untested (sendAck ci)

/-- A Data PDU reaches the computation of `expected_pkts`. -/
def divides (rx : CfdpReceiver) (dpdu : DataPdu) : Bool :=
  rx.transferActive && !(dpdu.transactionId != rx.state.transactionId) &&
    !(dpdu.dataLen == 0 || dpdu.dataLen.toNat > defaultPacketSize) &&
      !decide (dpdu.chunkIndex ≥ rx.state.totalChunks)

/-- Before the division of `handle_data`. -/
def dataDivision (dpdu : DataPdu) : Tested Unit := do
  let w ← get
  if divides w.rx dpdu then division else return ()

section

variable (env : Env) (o : Oracle)

def checkCompletion : Tested Unit := do
  let w ← get
  if !w.rx.state.eofReceived then
    return ()
  else if w.rx.unfinished then
    untested (sendNakPackets w.rx.currentChunkIndex)
  else
    match w.rx.sentMissing with
    | some cr => do
      division
      untested (transportSend (w.rx.chunkNak cr.firstChunk))
    | none => untested (Cfdp.checkCompletion env o)

def flushChunk (chunkIndex : UInt32) : Tested Unit := do
  let w ← get
  let data := w.rx.packetList.assemble
  let path := w.rx.state.recvFilePath
  untested (openOrCreate o path w.rx.state.fileSize)
  untested (writeChunk o path (w.rx.state.chunkFileOffset chunkIndex) data)
  index chunkIndex
  modify fun w => w.setRx fun rx => { rx with state := rx.state.markDone chunkIndex }
  let _ ← untested (Journal.markChunkDone o chunkIndex)
  ackChunk chunkIndex
  modify fun w => w.setRx CfdpReceiver.clearList
  if w.rx.state.eofReceived then
    checkCompletion env o
  else
    return ()

def handleData (dpdu : DataPdu) : Tested Unit := do
  dataDivision dpdu
  let w ← get
  if !w.rx.acceptsData dpdu then
    return ()
  else
    modify fun w => w.setRx (CfdpReceiver.see dpdu.chunkIndex)
    if w.rx.state.isDone dpdu.chunkIndex then
      if dpdu.packetIndex == 0 then
        ackChunk dpdu.chunkIndex
      else
        return ()
    else
      untested (switchChunk dpdu.chunkIndex dpdu.totalPackets)
      modify fun w => w.setRx (CfdpReceiver.store dpdu)
      let w ← get
      if w.rx.packetList.isComplete then
        flushChunk env o dpdu.chunkIndex
      else
        return ()

def handleEof (eof : EofPdu) : Tested Unit := do
  let w ← get
  if !w.rx.transferActive then
    return ()
  else if eof.transactionId != w.rx.state.transactionId then
    return ()
  else
    untested (noteEof o)
    checkCompletion env o

def onPduReceived (raw : Bytes) : Tested Unit :=
  match decodePdu raw with
  | some (.metadata metadata) => untested (handleMetadata env o metadata)
  | some (.data dpdu) => handleData env o dpdu
  | some (.eof eof) => handleEof env o eof
  | some (.resumeQuery query) => untested (handleResumeQuery query)
  | none => return ()

def onBoot : Tested Unit := do
  let w ← get
  if w.disk.stateBin.isNone then
    return ()
  else
    let (ok, state) :=
      if o.fails .journalOpen then (false, w.rx.state)
      else JournalState.readFromDisk o.oddBool w.disk.stateBin w.rx.state
    modify fun w => w.setRx fun rx => { rx with state }
    if !ok then
      let _ ← untested (Journal.remove o)
    else
      modify fun w => w.setRx CfdpReceiver.activate
      if state.computeMissingChunks = [] ∧ state.eofReceived = true then
        checkCompletion env o
      else
        return ()

end

/-! ## The tests pass -/

section

variable {env : Env} {o : Oracle} {w : World}

theorem packetSize_ne (h : w.rx.Ok) (ha : w.rx.transferActive = true) : w.rx.state.packetSize ≠ 0 := by
  intro h0
  have := (h.sane ha).packetSize.1
  rw [h0] at this
  exact absurd this (by decide)

theorem untested_bind {α β : Type} (p : M α) (f : α → M β) :
    untested (p >>= f) = untested p >>= fun a => untested (f a) := mapError_bind _ p f

theorem untested_ite {α : Type} {c : Prop} [Decidable c] (p q : M α) :
    untested (if c then p else q) = if c then untested p else untested q := mapError_ite _ p q

theorem untested_get : untested get = (get : Tested World) := rfl

theorem untested_modify (f : World → World) : untested (modify f) = (modify f : Tested Unit) := rfl

theorem untested_pure {α : Type} (a : α) : untested (pure a) = (pure a : Tested α) := rfl

theorem division_bind {α : Type} {k : Unit → Tested α} (h : w.rx.state.packetSize ≠ 0) :
    (division >>= k) w = k () w := by
  have ht : (w.rx.state.packetSize != 0) = true := by simpa using h
  show ((require (w.rx.state.packetSize != 0) .divisionByZero) >>= k) w = _
  unfold require
  rw [if_pos ht]
  rfl

theorem index_bind {α : Type} {k : Unit → Tested α} {ci : UInt32}
    (h : ci.toNat < w.rx.state.chunkDone.length) : (index ci >>= k) w = k () w := by
  have ht : decide (ci.toNat < w.rx.state.chunkDone.length) = true := by simpa using h
  show ((require (decide (ci.toNat < w.rx.state.chunkDone.length)) .outOfRange) >>= k) w = _
  unfold require
  rw [if_pos ht]
  rfl

theorem ackChunk_eq {ci : UInt32} (h : ci ≠ uint32Max) : ackChunk ci = untested (sendAck ci) := by
  have ht : (ci != uint32Max) = true := by simpa using h
  unfold ackChunk
  rw [require, if_pos ht]
  rfl

/-- `check_completion` divides only when a chunk is missing. -/
theorem checkCompletion_eq (h : w.rx.state.packetSize ≠ 0) :
    checkCompletion env o w = untested (Cfdp.checkCompletion env o) w := by
  have hrun : untested (Cfdp.checkCompletion env o) w = _ := rfl
  rw [checkCompletion, get_bind]
  by_cases he : (!w.rx.state.eofReceived) = true
  · rw [if_pos he, Cfdp.checkCompletion, untested_bind]
    show _ = untested (if _ then _ else _) w
    rw [if_pos he]
    rfl
  rw [if_neg he]
  by_cases hu : w.rx.unfinished = true
  · rw [if_pos hu, Cfdp.checkCompletion, untested_bind]
    show _ = untested (if _ then _ else _) w
    rw [if_neg he, if_pos hu]
  rw [if_neg hu]
  cases hm : w.rx.sentMissing with
  | none => rfl
  | some cr =>
    show (division >>= fun _ => _) w = _
    rw [division_bind h, Cfdp.checkCompletion, untested_bind]
    show _ = untested (if _ then _ else _) w
    rw [if_neg he, if_neg hu]
    unfold CfdpReceiver.sentMissing at hm
    show _ = untested (match w.rx.state.computeMissingChunks.find? _ with | some _ => _ | none => _) w
    rw [hm]

/-- `flush_chunk` marks a chunk of the record and acknowledges it. -/
theorem flushChunk_eq {ci : UInt32} (hps : w.rx.state.packetSize ≠ 0) (hne : ci ≠ uint32Max)
    (hlen : ci.toNat < w.rx.state.chunkDone.length) :
    flushChunk env o ci w = untested (Cfdp.flushChunk env o ci) w := by
  unfold flushChunk Cfdp.flushChunk
  simp only [untested_bind, untested_ite, untested_get, untested_modify, untested_pure, ackChunk_eq hne]
  rw [get_bind, get_bind]
  refine bind_congr (wp_mapError (wp_openOrCreate (fun _ _ => trivial) (fun _ _ _ _ => trivial) ?_))
  intro base _
  refine bind_congr (wp_mapError (wp_writeChunk (World.setFile_files _ _ _) (fun _ => trivial)
    (fun _ _ _ => trivial) ?_))
  refine Eq.trans (index_bind hlen) ?_
  refine bind_congr ((wp_modify _).mpr ?_)
  refine bind_congr (wp_mapError (wp_journalUpdate (fun _ => trivial) (fun _ _ _ _ => trivial) ?_))
  intro _ w' hu
  obtain ⟨hrx, -⟩ := hu.alike
  refine bind_congr (wp_mapError (wp_sendAck.mpr ⟨trivial, bind_congr ((wp_modify _).mpr ?_)⟩))
  split
  · refine checkCompletion_eq ?_
    show w'.rx.state.packetSize ≠ 0
    rw [hrx]
    exact hps
  · rfl

theorem dataDivision_bind {α : Type} {k : Unit → Tested α} {dpdu : DataPdu} (h : w.rx.Ok) :
    (dataDivision dpdu >>= k) w = k () w := by
  show ((if divides w.rx dpdu then division else return ()) >>= k) w = _
  split
  · next hd =>
    have ha : w.rx.transferActive = true := by
      simp only [divides, Bool.and_eq_true] at hd
      exact hd.1.1.1
    exact division_bind (packetSize_ne h ha)
  · rfl

theorem handleData_eq (h : w.rx.Ok) (dpdu : DataPdu) :
    handleData env o dpdu w = untested (Cfdp.handleData env o dpdu) w := by
  unfold handleData Cfdp.handleData
  simp only [untested_bind, untested_ite, untested_get, untested_modify, untested_pure]
  refine Eq.trans (dataDivision_bind h) ?_
  rw [get_bind, get_bind]
  split
  · rfl
  · next ha =>
    have hacc := CfdpReceiver.acceptsData_iff.mp (by simpa using ha)
    have hsane := h.sane hacc.active
    have hne := CfdpReceiver.ne_uint32Max hacc.chunk hsane.totalChunks.2
    have hlen : dpdu.chunkIndex.toNat < w.rx.state.chunkDone.length := by
      rw [hsane.flags]
      exact hacc.chunk
    rw [ackChunk_eq hne]
    refine bind_congr ((wp_modify _).mpr ?_)
    split
    · rfl
    · refine bind_congr (wp_mapError (wp_switchChunk (fun _ _ => trivial) ?_))
      refine bind_congr ((wp_modify _).mpr ?_)
      rw [get_bind, get_bind]
      split
      · refine flushChunk_eq ?_ hne ?_
        · simpa [CfdpReceiver.store] using packetSize_ne h hacc.active
        · simpa [CfdpReceiver.store] using hlen
      · rfl

theorem handleEof_eq (h : w.rx.Ok) (eof : EofPdu) :
    handleEof env o eof w = untested (Cfdp.handleEof env o eof) w := by
  unfold handleEof Cfdp.handleEof
  simp only [untested_bind, untested_ite, untested_get, untested_pure]
  rw [get_bind, get_bind]
  split
  · rfl
  · next ha =>
    have hps := packetSize_ne h (by simpa using ha)
    split
    · rfl
    · refine bind_congr (wp_mapError ?_)
      unfold noteEof
      rw [wp_bind, wp_get, wp_ite, wp_pure]
      refine ⟨fun _ => ?_, fun _ => checkCompletion_eq hps⟩
      rw [wp_bind]
      refine wp_journalUpdate (fun _ => trivial) (fun _ _ _ _ => trivial) fun _ w' hu => ?_
      obtain ⟨hrx, -⟩ := hu.alike
      rw [wp_modify]
      refine checkCompletion_eq ?_
      show w'.rx.state.packetSize ≠ 0
      rw [hrx]
      exact hps

/-- The tested handlers run as the handlers do. -/
theorem onPduReceived_eq (h : w.rx.Ok) (raw : Bytes) :
    onPduReceived env o raw w = untested (Cfdp.onPduReceived env o raw) w := by
  unfold onPduReceived Cfdp.onPduReceived
  cases decodePdu raw with
  | none => rfl
  | some pdu =>
    cases pdu with
    | metadata metadata => rfl
    | data dpdu => exact handleData_eq h dpdu
    | eof eof => exact handleEof_eq h eof
    | resumeQuery query => rfl

/-- A journal that loads holds a sane record. -/
theorem onBoot_eq (h : JournalAll JournalState.Sane w.disk) :
    onBoot env o w = untested (Cfdp.onBoot env o) w := by
  unfold onBoot Cfdp.onBoot
  simp only [untested_bind, untested_ite, untested_get, untested_modify, untested_pure]
  rw [get_bind, get_bind]
  split
  · rfl
  · next hne =>
    cases ho : o.fails .journalOpen with
    | true => rfl
    | false =>
      obtain ⟨s, hs, -, -, hl⟩ := h.loads (o := o) (fun hn => hne (by rw [hn]; rfl)) ho
      rw [World.loads, ho, if_neg Bool.false_ne_true] at hl
      simp only [Bool.false_eq_true, if_false, hl]
      refine bind_congr ((wp_modify _).mpr ?_)
      simp only [Bool.not_true, Bool.false_eq_true, if_false]
      refine bind_congr ((wp_modify _).mpr ?_)
      split
      · refine checkCompletion_eq fun h0 => ?_
        have := hs.packetSize.1
        rw [show s.packetSize = 0 from h0] at this
        exact absurd this (by decide)
      · rfl

end

end Tested

/-! ## Every run -/

/-- The fields of an active transfer. -/
structure CfdpReceiver.Consistent (rx : CfdpReceiver) : Prop where
  packetSize : 1 ≤ rx.state.packetSize.toNat ∧ rx.state.packetSize.toNat ≤ 4096
  chunkSize : 1 ≤ rx.state.chunkSize.toNat
  totalChunks : 1 ≤ rx.state.totalChunks.toNat ∧ rx.state.totalChunks.toNat ≤ 2 ^ 20
  flags : rx.state.chunkDone.length = rx.state.totalChunks.toNat
  seen : rx.maxChunkSeen.toNat < rx.state.totalChunks.toNat
  idle : rx.currentChunkIndex = uint32Max → rx.packetList.index = []
  busy : rx.currentChunkIndex ≠ uint32Max →
    rx.currentChunkIndex.toNat < rx.state.totalChunks.toNat ∧
      rx.state.isDone rx.currentChunkIndex = false ∧
      rx.packetList.totalPackets = rx.state.expectedPkts rx.currentChunkIndex ∧
      rx.packetList.index.length = (rx.state.expectedPkts rx.currentChunkIndex).toNat ∧
      rx.packetList.isComplete = false
  missing : rx.state.eofReceived = true →
    ∃ ci : UInt32, ci.toNat < rx.state.totalChunks.toNat ∧ rx.state.isDone ci = false

theorem CfdpReceiver.Ok.consistent {rx : CfdpReceiver} (h : rx.Ok) (ha : rx.transferActive = true) :
    rx.Consistent where
  packetSize := (h.sane ha).packetSize
  chunkSize := (h.sane ha).chunkSize
  totalChunks := (h.sane ha).totalChunks
  flags := (h.sane ha).flags
  seen := h.seen ha
  idle hc := by rw [h.idle hc]
  busy hc := by
    have hb := h.busy ha hc
    refine ⟨hb.lt, hb.open_, hb.slots, ?_, hb.incomplete⟩
    rw [h.wf.1, hb.slots]
  missing he := by
    by_contra hn
    refine h.missing ha he ((JournalState.computeMissingChunks_eq_nil _).mpr fun ci hci => ?_)
    by_contra hd
    exact hn ⟨ci, UInt32.lt_iff_toNat_lt.mp hci, by simpa using hd⟩

/-- A machine that is off, its disk without journal or with one of this receiver. -/
def Node.Bootable (n : Node) : Prop :=
  ∃ disk log, n = .down disk log ∧ (disk.stateBin = none ∨
    ∃ env n₀ hist n₁, Node.Fresh n₀ ∧ Node.Run env (fun _ _ => True) n₀ hist n₁ ∧
      n₁.disk.stateBin = disk.stateBin)

theorem Node.Ok.disk {n : Node} (h : n.Ok) : JournalAll JournalState.Sane n.disk := by
  cases n with
  | up w => exact h.2
  | down disk log => exact h

theorem Node.Bootable.ok {n : Node} (h : n.Bootable) : n.Ok := by
  obtain ⟨disk, log, rfl, hnone | ⟨env, n₀, hist, n₁, hn₀, hr, hd⟩⟩ := h
  · exact Node.Fresh.ok (n := .down disk []) ⟨hnone, rfl⟩
  · intro c hc
    exact (Node.Run.ok hn₀ hr).disk c (hd.trans hc)

/-- **The fields stay consistent and no handler faults**, whatever bytes arrive, whatever
calls fail, and wherever the receiver crashes or boots. -/
theorem run_consistent {env : Env} {n n' : Node} {hist : List Moment} (hn : n.Bootable)
    (h : Node.Run env (fun _ _ => True) n hist n') :
    (∀ w, n' = .up w → (w.rx.transferActive = true → w.rx.Consistent) ∧
      ∀ raw o, Tested.onPduReceived env o raw w = untested (onPduReceived env o raw) w) ∧
    ∀ disk log, n' = .down disk log → ∀ garbage o,
      Tested.onBoot env o ⟨.construct garbage, disk, log⟩ =
        untested (onBoot env o) ⟨.construct garbage, disk, log⟩ := by
  have hok : n'.Ok := Node.Run.ok_of hn.ok h
  constructor
  · rintro w rfl
    exact ⟨hok.1.consistent, fun raw o => Tested.onPduReceived_eq hok.1 raw⟩
  · rintro disk log rfl garbage o
    exact Tested.onBoot_eq (w := ⟨.construct garbage, disk, log⟩) hok

/-- Three bytes in one chunk of two packets. -/
def threeBytes : MetadataPdu := { metadataOf 3 with chunkSize := 3, packetSize := 2 }

def threeBytesLast : DataPdu := ⟨1, 0, 1, 2, 1, Crc.crc8 [0x63], [0x63]⟩

/-- A chunk is in progress, and its last packet may arrive again. -/
theorem run_consistent_small : ∃ hist w, Node.Run sampleEnv (fun _ _ => True) unusedNode hist (.up w) ∧
    w.rx.transferActive = true ∧ w.rx.currentChunkIndex = 0 ∧ w.rx.packetList.validCount = 1 ∧
    w.rx.Consistent ∧ ∀ o,
      Tested.onPduReceived sampleEnv o (PduType.data.code :: threeBytesLast.toBytes) w =
        untested (onPduReceived sampleEnv o (PduType.data.code :: threeBytesLast.toBytes)) w := by
  have hrun : (sampleRun [powerOn, deliver (PduType.metadata.code :: threeBytes.toBytes),
      deliver (PduType.data.code :: threeBytesLast.toBytes)]).any (fun r => r.2.world?.any fun w =>
        w.rx.transferActive && w.rx.currentChunkIndex == 0 && w.rx.packetList.validCount == 1) = true := by
    decide +kernel
  simp only [Option.any_eq_true, Node.world?_eq_some, Bool.and_eq_true, beq_iff_eq, Prod.exists] at hrun
  obtain ⟨hist, n, hr, w, rfl, ⟨ha, hcur⟩, hvalid⟩ := hrun
  have hok : Node.Run sampleEnv (fun _ _ => True) unusedNode hist (.up w) :=
    Machine.exec_run hr fun _ _ _ _ _ => trivial
  have hboot : unusedNode.Bootable := ⟨_, _, rfl, .inl rfl⟩
  obtain ⟨hcons, htested⟩ := (run_consistent hboot hok).1 w rfl
  exact ⟨hist, w, hok, ha, hcur, hvalid, hcons ha, htested _⟩

end Cfdp
