import Cfdp.Journal
import Mathlib.Data.List.Infix

/-!
# The receiver

The handlers of `CfdpReceiver.cpp` as programs over `World`. Console output is
left out. `fdatasync` has no counterpart: steps are durable in program order.
-/

namespace Cfdp

open Crash Prog LittleEndian FileBytes

/-! ## Helpers -/

/-- `chunk_file_offset`. -/
def JournalState.chunkFileOffset (s : JournalState) (ci : UInt32) : UInt64 :=
  ci.toUInt64 * s.chunkSize.toUInt64

/-- The packet count of a chunk, as `handle_data` and `check_completion` compute it:
unsigned 64-bit remainder, narrowed to 32 bits before the rounding addition. -/
def JournalState.expectedPkts (s : JournalState) (ci : UInt32) : UInt32 :=
  ((min (s.fileSize - s.chunkFileOffset ci) s.chunkSize.toUInt64).toUInt32 + s.packetSize - 1) /
    s.packetSize

/-- `recv_file_path`. -/
def JournalState.recvFilePath (s : JournalState) : Bytes := cstr s.destPath.toList

/-- `Crc::crc32_file`: a file that does not open has the value 0. -/
def crc32OfPath (env : Env) (o : Oracle) (files : Bytes → Option Bytes) (path : Bytes) : UInt32 :=
  if o.fails .destRead then 0
  else
    match files path with
    | none => 0
    | some content => Crc.crc32File env.crc32 content

def verifyFileChecksum (env : Env) (o : Oracle) (w : World) : Bool :=
  crc32OfPath env o w.disk.files w.rx.state.recvFilePath == w.rx.state.checksumExpected

/-! ## Outgoing PDUs -/

def serializeNak (nak : NakPdu) : Bytes :=
  PduType.nak.code :: (le32 nak.transactionId ++ (le32 (UInt32.ofNat nak.missingPackets.length) ++
    nak.missingPackets.flatMap PacketNakRange.toBytes))

/-- NAK the missing packets of the chunk in the packet list. -/
def sendNakPackets (chunkIndex : UInt32) : M Unit := do
  let w ← get
  let nakRanges := w.rx.packetList.computeNakRanges
  if nakRanges = [] then
    return ()
  else
    transportSend (serializeNak ⟨w.rx.state.transactionId, nakRanges.map fun r => ⟨chunkIndex, r.1, r.2⟩⟩)

def sendAck (chunkIndex : UInt32) : M Unit := do
  let w ← get
  transportSend (AckPdu.raw ⟨w.rx.state.transactionId, chunkIndex⟩)

/-! ## Chunk logic -/

/-- Whether a stream opened for reading and writing is good: the file must exist. -/
def openDest (o : Oracle) (call : FsCall) (path : Bytes) : M Bool := do
  let w ← get
  return !o.fails call && (w.disk.files path).isSome

/-- Create or truncate the file and extend it to `fileSize` bytes. A negative seek
position or a failing `put` leaves it empty; neither is checked. -/
def createDest (o : Oracle) (path : Bytes) (fileSize : UInt64) : M Unit := do
  if o.fails .destCreate then
    throw ⟨"CfdpReceiver: cannot create file: ", path⟩
  else
    step fun w => w.setFile path (some [])
    if (fileSize - 1).toNat < 2 ^ 63 ∧ o.fails .destExtend = false then
      step fun w => w.setFile path (some (pwrite [] (fileSize - 1).toNat [0]))
    else
      return ()

def openOrCreate (o : Oracle) (path : Bytes) (fileSize : UInt64) : M Unit := do
  let opened ← openDest o .destOpen path
  if opened then
    return ()
  else if fileSize > 0 then
    createDest o path fileSize
    let reopened ← openDest o .destReopen path
    if reopened then
      return ()
    else
      throw ⟨"CfdpReceiver: cannot open file: ", path⟩
  else
    throw ⟨"CfdpReceiver: cannot open file: ", path⟩

/-- Write `data` at `offset`, one byte at a time. -/
def writeBytes (path : Bytes) (offset : Nat) (data : Bytes) : M Unit := do
  let w ← get
  let base := (w.disk.files path).getD []
  steps ((List.range data.length).map fun i w =>
    w.setFile path (some (pwrite base offset (data.take (i + 1)))))

/-- Seek, write and flush. A negative seek position fails the stream. -/
def writeChunk (o : Oracle) (path : Bytes) (offset : UInt64) (data : Bytes) : M Unit := do
  if offset.toNat ≥ 2 ^ 63 then
    throw ⟨"CfdpReceiver: write failed: ", path⟩
  else if o.fails .destWrite then
    writeBytes path offset.toNat (data.take o.short)
    throw ⟨"CfdpReceiver: write failed: ", path⟩
  else
    writeBytes path offset.toNat data

/-- A chunk is in progress and its packet list is not complete. -/
def CfdpReceiver.unfinished (rx : CfdpReceiver) : Bool :=
  rx.currentChunkIndex != uint32Max && !rx.packetList.isComplete

/-- The NAK for all packets of a chunk. -/
def CfdpReceiver.chunkNak (rx : CfdpReceiver) (ci : UInt32) : Bytes :=
  serializeNak ⟨rx.state.transactionId, [⟨ci, 0, rx.state.expectedPkts ci - 1⟩]⟩

def CfdpReceiver.deactivate (rx : CfdpReceiver) : CfdpReceiver := { rx with transferActive := false }

/-- No chunk in progress. -/
def CfdpReceiver.clearList (rx : CfdpReceiver) : CfdpReceiver :=
  { rx with packetList := rx.packetList.clear, currentChunkIndex := uint32Max }

/-- A transfer starts or resumes. -/
def CfdpReceiver.activate (rx : CfdpReceiver) : CfdpReceiver :=
  { rx with
    transferActive := true
    currentChunkIndex := uint32Max
    maxChunkSeen := 0
    packetList := rx.packetList.clear }

section

variable (env : Env) (o : Oracle)

def checkCompletion : M Unit := do
  let w ← get
  if !w.rx.state.eofReceived then
    return ()
  else if w.rx.unfinished then
    -- finish the current chunk first
    sendNakPackets w.rx.currentChunkIndex
  else
    let allMissing := w.rx.state.computeMissingChunks
    -- the first missing chunk the sender has already sent
    match allMissing.find? fun cr => !(cr.firstChunk > w.rx.maxChunkSeen) with
    | some cr => transportSend (w.rx.chunkNak cr.firstChunk)
    | none =>
      if allMissing ≠ [] then
        return ()
      else if !verifyFileChecksum env o w then
        modify fun w => w.setRx CfdpReceiver.deactivate
        let _ ← Journal.remove o
      else
        modify fun w => w.setRx fun rx => { rx with lastAckedId := rx.state.transactionId }
        sendAck uint32Max
        modify fun w => w.setRx CfdpReceiver.deactivate
        let _ ← Journal.remove o

def flushChunk (chunkIndex : UInt32) : M Unit := do
  let w ← get
  let data := w.rx.packetList.assemble
  let path := w.rx.state.recvFilePath
  openOrCreate o path w.rx.state.fileSize
  writeChunk o path (w.rx.state.chunkFileOffset chunkIndex) data
  -- mark done only after the data is on disk
  modify fun w => w.setRx fun rx => { rx with state := rx.state.markDone chunkIndex }
  let _ ← Journal.markChunkDone o chunkIndex
  sendAck chunkIndex
  modify fun w => w.setRx CfdpReceiver.clearList
  if w.rx.state.eofReceived then
    checkCompletion env o
  else
    return ()

/-! ## PDU handlers -/

/-- The string built by `snprintf(dest_path, sizeof(dest_path), "%s/%s", …)`. -/
def destString (metadata : MetadataPdu) : Bytes :=
  (cstr env.recvDir ++ 0x2F :: cstr (metadata.filename.toList ++ o.overread)).take 511

/-- `snprintf` into the array: the string, its NUL, and the old bytes beyond. -/
def snprintfInto (s : Bytes) (old : CharArray 512) : CharArray 512 :=
  CharArray.ofBytes 512 (s ++ 0 :: old.toList.drop (s.length + 1))

/-- `strncpy(filename, src, 255)`: padded with NULs, the last byte untouched. -/
def strncpyInto (src : CharArray 256) (old : CharArray 256) : CharArray 256 :=
  let s := (cstr src.toList).take 255
  CharArray.ofBytes 256 (s ++ List.replicate (255 - s.length) 0 ++ old.toList.drop 255)

/-- The file name passes: it is not empty, has no `/` and no `..`. -/
def safeName (fname : Bytes) : Bool :=
  !fname.isEmpty && !fname.contains 0x2F && !decide ([0x2E, 0x2E] <:+: fname)

/-- The sanity checks of `handle_metadata`. -/
def MetadataPdu.sane (metadata : MetadataPdu) : Bool :=
  !(metadata.totalChunks == 0 || metadata.totalChunks.toNat > 2 ^ 20) &&
    (!(metadata.packetSize == 0 || metadata.packetSize.toNat > defaultPacketSize) &&
      (!(metadata.chunkSize == 0) && safeName (cstr metadata.filename.toList)))

/-- The transfer record `handle_metadata` fills in. -/
def JournalState.start (old : JournalState) (metadata : MetadataPdu) : JournalState where
  transactionId := metadata.transactionId
  fileSize := metadata.fileSize
  chunkSize := metadata.chunkSize
  packetSize := metadata.packetSize
  totalChunks := metadata.totalChunks
  checksumExpected := metadata.checksum
  eofReceived := false
  filename := strncpyInto metadata.filename old.filename
  destPath := snprintfInto (destString env o metadata) old.destPath
  chunkDone := List.replicate metadata.totalChunks.toNat false

/-- `if (journal_.exists()) journal_.remove();` -/
def removeJournal : M Unit := do
  let w ← get
  if w.disk.stateBin.isSome then
    let _ ← Journal.remove o
  else
    return ()

def handleMetadata (metadata : MetadataPdu) : M Unit := do
  let w ← get
  if w.rx.transferActive && w.rx.state.transactionId == metadata.transactionId then
    -- duplicate Metadata for the active transaction
    return ()
  else if !w.rx.transferActive && w.rx.lastAckedId == metadata.transactionId then
    -- already finished for this tid: resend the final ACK
    sendAck uint32Max
  else if !metadata.sane then
    return ()
  else
    removeJournal o
    modify fun w => w.setRx fun rx => { rx with state := rx.state.start env o metadata }
    let w ← get
    let _ ← Journal.create o w.rx.state
    modify fun w => w.setRx CfdpReceiver.activate

/-- Raise `max_chunk_seen_`. -/
def CfdpReceiver.see (ci : UInt32) (rx : CfdpReceiver) : CfdpReceiver :=
  if ci > rx.maxChunkSeen then { rx with maxChunkSeen := ci } else rx

/-- NAK the previous chunk if it is still incomplete. -/
def nakUnfinished : M Unit := do
  let w ← get
  if w.rx.unfinished then
    sendNakPackets w.rx.currentChunkIndex
  else
    return ()

/-- Make `ci` the chunk in progress. -/
def switchChunk (ci totalPackets : UInt32) : M Unit := do
  let w ← get
  if ci != w.rx.currentChunkIndex then
    nakUnfinished
    modify fun w => w.setRx fun rx =>
      { rx with
        packetList := rx.packetList.clear.init totalPackets
        currentChunkIndex := ci }
  else
    return ()

/-- Insert the packet, valid only if its CRC-8 matches. -/
def CfdpReceiver.store (dpdu : DataPdu) (rx : CfdpReceiver) : CfdpReceiver :=
  { rx with
    packetList :=
      (rx.packetList.insert dpdu.packetIndex dpdu.data (Crc.crc8 dpdu.data == dpdu.crc8)).2 }

/-- The tests a Data PDU has to pass. -/
def CfdpReceiver.acceptsData (rx : CfdpReceiver) (dpdu : DataPdu) : Bool :=
  rx.transferActive &&
    (!(dpdu.transactionId != rx.state.transactionId) &&
      (!(dpdu.dataLen == 0 || dpdu.dataLen.toNat > defaultPacketSize) &&
        (!decide (dpdu.chunkIndex ≥ rx.state.totalChunks) &&
          !(dpdu.totalPackets != rx.state.expectedPkts dpdu.chunkIndex))))

def handleData (dpdu : DataPdu) : M Unit := do
  let w ← get
  if !w.rx.acceptsData dpdu then
    return ()
  else
    modify fun w => w.setRx (CfdpReceiver.see dpdu.chunkIndex)
    if w.rx.state.isDone dpdu.chunkIndex then
      -- already done: acknowledge again on packet 0
      if dpdu.packetIndex == 0 then
        sendAck dpdu.chunkIndex
      else
        return ()
    else
      switchChunk dpdu.chunkIndex dpdu.totalPackets
      modify fun w => w.setRx (CfdpReceiver.store dpdu)
      let w ← get
      if w.rx.packetList.isComplete then
        flushChunk env o dpdu.chunkIndex
      else
        return ()

/-- Record the Eof, in the journal first, unless it was seen before. -/
def noteEof : M Unit := do
  let w ← get
  if !w.rx.state.eofReceived then
    let _ ← Journal.markEofReceived o
    modify fun w => w.setRx fun rx => { rx with state := rx.state.markEof }
  else
    return ()

def handleEof (eof : EofPdu) : M Unit := do
  let w ← get
  if !w.rx.transferActive then
    return ()
  else if eof.transactionId != w.rx.state.transactionId then
    return ()
  else
    noteEof o
    checkCompletion env o

/-- The chunk a sender of transaction `tid` is told to resume from. -/
def firstMissingChunk (rx : CfdpReceiver) (tid : UInt32) : UInt32 :=
  if !rx.transferActive || rx.state.transactionId != tid then 0
  else
    match rx.state.computeMissingChunks with
    | [] => uint32Max
    | cr :: _ => cr.firstChunk

def handleResumeQuery (query : ResumeQueryPdu) : M Unit := do
  let w ← get
  transportSend (ResumeInfoPdu.raw ⟨query.transactionId, firstMissingChunk w.rx query.transactionId⟩)

/-- The dispatcher. -/
def onPduReceived (raw : Bytes) : M Unit :=
  match decodePdu raw with
  | some (.metadata metadata) => handleMetadata env o metadata
  | some (.data dpdu) => handleData env o dpdu
  | some (.eof eof) => handleEof env o eof
  | some (.resumeQuery query) => handleResumeQuery query
  | none => return ()

/-- Boot recovery. -/
def onBoot : M Unit := do
  let w ← get
  if w.disk.stateBin.isNone then
    return ()
  else
    let (ok, state) :=
      if o.fails .journalOpen then (false, w.rx.state)
      else JournalState.readFromDisk o.oddBool w.disk.stateBin w.rx.state
    modify fun w => w.setRx fun rx => { rx with state }
    if !ok then
      let _ ← Journal.remove o
    else
      modify fun w => w.setRx CfdpReceiver.activate
      if state.computeMissingChunks = [] ∧ state.eofReceived = true then
        checkCompletion env o
      else
        return ()

end

end Cfdp
