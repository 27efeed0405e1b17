import Cfdp.Lib.Crash
import Cfdp.Lib.FileBytes
import Cfdp.Crc
import Cfdp.JournalCodec

/-!
# The receiver process and its surroundings

`World` is everything the receiver reads and writes: its own fields (`rx`), the
files (`disk`), and the log of what it has done (`log`): the PDUs transmitted and
the journal updates committed, oldest first. Handlers are programs over `World`
(`M`), so that every durable step is a point where a crash can strike; the
fields are volatile.

The journal files live in `state_dir`, the received files in `recv_dir`; these
are different directories, so a received file is never a journal file.

What the program does not decide is in `Env` (the receive directory, zlib's
CRC-32) and in the `Oracle` of a call: which file-system calls fail, the bytes
found where `%s` reads past an unterminated `filename`, and what a `bool` is that
was read from a file and is none.
-/

namespace Cfdp

open Crash FileBytes

/-- Fields of the receiver object. -/
structure CfdpReceiver where
  state : JournalState
  transferActive : Bool := false
  lastAckedId : UInt32 := 0
  currentChunkIndex : UInt32 := uint32Max
  maxChunkSeen : UInt32 := 0
  packetList : PacketList := {}

/-- The object after its constructor: `state_` holds whatever was in memory, but
its vector is empty. -/
def CfdpReceiver.construct (garbage : JournalState) : CfdpReceiver where
  state := { garbage with chunkDone := [] }

/-- The files. No path in `files` leads into `state_dir`: the received files lie in another
directory. -/
structure Disk where
  /-- `state.bin` -/
  stateBin : Option Bytes
  /-- `state.bin.tmp` -/
  tmp : Option Bytes
  /-- received files, by path -/
  files : Bytes → Option Bytes

/-- A committed change of `state.bin`. -/
inductive JournalUpdate where
  | create (s : JournalState)
  | chunkDone (ci : UInt32)
  | eofReceived
  | remove
  deriving DecidableEq

/-- What an update does to the journal record. -/
def JournalUpdate.apply : JournalUpdate → Option JournalState → Option JournalState
  | .create s, _ => some s
  | .chunkDone ci, j => j.map fun s => s.markDone ci
  | .eofReceived, j => j.map JournalState.markEof
  | .remove, _ => none

inductive Event where
  | sent (pdu : Bytes)
  | journal (u : JournalUpdate)
  deriving DecidableEq

structure World where
  rx : CfdpReceiver
  disk : Disk
  log : List Event

/-- The file-system calls of one handler; each is made at most once. -/
inductive FsCall where
  | tmpOpen
  | tmpWrite
  | rename
  | journalOpen
  | journalRemove
  | destOpen
  | destCreate
  | destExtend
  | destReopen
  | destWrite
  | destRead
  deriving DecidableEq

/-- What the system decides during one call. -/
structure Oracle where
  fails : FsCall → Bool
  /-- how many bytes a failing write still writes -/
  short : Nat
  /-- the bytes that follow `filename` in memory -/
  overread : Bytes
  /-- what a `bool` is taken for whose byte is neither 0 nor 1 -/
  oddBool : Bool

/-- No file-system call fails. -/
def Oracle.Smooth (o : Oracle) : Prop := ∀ c, o.fails c = false

/-- The calls on the journal files. -/
def FsCall.onJournal : FsCall → Bool
  | .tmpOpen | .tmpWrite | .rename | .journalOpen | .journalRemove => true
  | _ => false

/-- No call on the journal files fails. -/
def Oracle.JournalSmooth (o : Oracle) : Prop := ∀ c, c.onJournal = true → o.fails c = false

/-- The calls of an atomic write succeed. -/
structure Oracle.Writes (o : Oracle) : Prop where
  tmpOpen : o.fails .tmpOpen = false
  tmpWrite : o.fails .tmpWrite = false
  rename : o.fails .rename = false

/-- So do those of an update, which reads the journal first. -/
structure Oracle.Updates (o : Oracle) : Prop extends Writes o where
  journalOpen : o.fails .journalOpen = false

theorem Oracle.JournalSmooth.updates {o : Oracle} (h : o.JournalSmooth) : o.Updates :=
  ⟨⟨h _ rfl, h _ rfl, h _ rfl⟩, h _ rfl⟩

theorem Oracle.Smooth.journal {o : Oracle} (h : o.Smooth) : o.JournalSmooth := fun c _ => h c

/-- What the receiver is given; `recvDir` is not the directory of the journal. -/
structure Env where
  recvDir : Bytes
  crc32 : UInt32 → Bytes → UInt32

/-- `std::runtime_error`: its text, a message followed by a path. -/
structure RuntimeError where
  what : String
  path : Bytes

abbrev M := Prog World RuntimeError

namespace World

variable (w : World)

def setRx (f : CfdpReceiver → CfdpReceiver) : World := { w with rx := f w.rx }

def setTmp (t : Option Bytes) : World := { w with disk := { w.disk with tmp := t } }

def setFile (path : Bytes) (content : Option Bytes) : World :=
  { w with disk := { w.disk with files := fun p => if p = path then content else w.disk.files p } }

/-- The journal file replaced or removed. -/
def setJournal (content : Option Bytes) : World :=
  { w with disk := { w.disk with stateBin := content } }

def record (e : Event) : World := { w with log := w.log ++ [e] }

/-- The rename that commits a journal update. -/
def commit (u : JournalUpdate) (s : JournalState) : World :=
  ((w.setTmp none).setJournal (some s.encode)).record (.journal u)

/-- The removal of the journal. -/
def dropJournal : World := (w.setJournal none).record (.journal .remove)

def send (pdu : Bytes) : World := w.record (.sent pdu)

@[simp] theorem setRx_rx (f) : (w.setRx f).rx = f w.rx := rfl
@[simp] theorem setRx_disk (f) : (w.setRx f).disk = w.disk := rfl
@[simp] theorem setRx_log (f) : (w.setRx f).log = w.log := rfl
@[simp] theorem setTmp_rx (t) : (w.setTmp t).rx = w.rx := rfl
@[simp] theorem setTmp_stateBin (t) : (w.setTmp t).disk.stateBin = w.disk.stateBin := rfl
@[simp] theorem setTmp_files (t) : (w.setTmp t).disk.files = w.disk.files := rfl
@[simp] theorem setTmp_log (t) : (w.setTmp t).log = w.log := rfl
@[simp] theorem setFile_rx (p c) : (w.setFile p c).rx = w.rx := rfl
@[simp] theorem setFile_stateBin (p c) : (w.setFile p c).disk.stateBin = w.disk.stateBin := rfl
@[simp] theorem setFile_files (p c) : (w.setFile p c).disk.files p = c := by simp [setFile]
@[simp] theorem setFile_log (p c) : (w.setFile p c).log = w.log := rfl
@[simp] theorem send_rx (pdu) : (w.send pdu).rx = w.rx := rfl
@[simp] theorem send_disk (pdu) : (w.send pdu).disk = w.disk := rfl
@[simp] theorem send_log (pdu) : (w.send pdu).log = w.log ++ [.sent pdu] := rfl
@[simp] theorem commit_rx (u s) : (w.commit u s).rx = w.rx := rfl
@[simp] theorem commit_stateBin (u s) : (w.commit u s).disk.stateBin = some s.encode := rfl
@[simp] theorem commit_files (u s) : (w.commit u s).disk.files = w.disk.files := rfl
@[simp] theorem commit_log (u s) : (w.commit u s).log = w.log ++ [.journal u] := rfl
@[simp] theorem dropJournal_rx : w.dropJournal.rx = w.rx := rfl
@[simp] theorem dropJournal_stateBin : w.dropJournal.disk.stateBin = none := rfl
@[simp] theorem dropJournal_files : w.dropJournal.disk.files = w.disk.files := rfl
@[simp] theorem dropJournal_log : w.dropJournal.log = w.log ++ [.journal .remove] := rfl

theorem setFile_files_of_ne {p q : Bytes} (h : q ≠ p) (c) :
    (w.setFile p c).disk.files q = w.disk.files q := by simp [setFile, h]

@[simp] theorem setTmp_setTmp (t t') : (w.setTmp t).setTmp t' = w.setTmp t' := rfl

@[simp] theorem setTmp_commit (t u s) : (w.setTmp t).commit u s = w.commit u s := rfl

@[simp] theorem setFile_setFile (p c c') : (w.setFile p c).setFile p c' = w.setFile p c' := by
  simp only [setFile]
  congr 2
  funext q
  by_cases h : q = p <;> simp [h]

end World

/-- `transport_.send(pdu)`. -/
def transportSend (pdu : Bytes) : M Unit := Prog.step fun w => w.send pdu

end Cfdp
