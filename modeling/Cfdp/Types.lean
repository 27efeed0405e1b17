import Cfdp.Lib.LittleEndian
import Mathlib.Data.List.TakeWhile
import Mathlib.Data.Vector.Basic

/-!
# PDUs and their layout

The protocol data units of `Types.h`, with the memory layout of the packed
structs on a little-endian target (`toBytes`, `ofBytes`). `decodePdu` is the
deserialising half of the receiver's dispatcher: which struct, if any, a raw PDU
is copied into. `decodePdu` reads back what the layouts write.
-/

namespace Cfdp

open LittleEndian

/-- Bytes up to the first NUL. -/
def cstr (bs : Bytes) : Bytes := bs.takeWhile (· ≠ 0)

/-- A C array of `n` chars. -/
abbrev CharArray (n : Nat) := List.Vector UInt8 n

/-- The first `n` bytes of `bs`, padded with NULs. -/
def CharArray.ofBytes (n : Nat) (bs : Bytes) : CharArray n :=
  ⟨(bs ++ List.replicate n 0).take n, by simp⟩

theorem CharArray.ofBytes_self {n : Nat} (a : CharArray n) (r : Bytes) :
    CharArray.ofBytes n (a.toList ++ r) = a := by
  apply Subtype.ext
  have h : a.toList.length = n := a.2
  show ((a.toList ++ r) ++ _).take n = a.toList
  rw [List.append_assoc, List.take_append_of_le_length (by omega), List.take_of_length_le (by omega)]

theorem cstr_append_zero (s r : Bytes) : cstr (s ++ 0 :: r) = cstr s := by
  induction s with
  | nil => simp [cstr]
  | cons b s ih =>
    simp only [cstr, List.cons_append, List.takeWhile_cons] at ih ⊢
    split
    · rw [ih]
    · rfl

theorem cstr_eq_self {s : Bytes} (h : ∀ b ∈ s, b ≠ 0) : cstr s = s := by
  unfold cstr
  rw [List.takeWhile_eq_self_iff]
  intro b hb
  simpa using h b hb

theorem ne_zero_of_mem_cstr {s : Bytes} {b : UInt8} (h : b ∈ cstr s) : b ≠ 0 := by
  simpa using List.mem_takeWhile_imp h

/-- The characters of a short string, read from its array. -/
theorem cstr_ofBytes {n : Nat} {s : Bytes} (h : s.length < n) (r : Bytes) :
    cstr ((CharArray.ofBytes n s).toList ++ r) = cstr s := by
  have h1 : (CharArray.ofBytes n s).toList = s ++ 0 :: List.replicate (n - s.length - 1) 0 := by
    show (s ++ List.replicate n 0).take n = _
    rw [List.take_append, List.take_of_length_le (by omega), List.take_replicate,
      Nat.min_eq_left (by omega), ← List.replicate_succ]
    congr 2; omega
  rw [h1, List.append_assoc, List.cons_append, cstr_append_zero]

def defaultPacketSize : Nat := 4096

/-- `UINT32_MAX`, the sentinel of chunk indices. -/
def uint32Max : UInt32 := 0xFFFFFFFF

inductive PduType where
  | metadata
  | data
  | eof
  | nak
  | ack
  | resumeQuery
  | resumeInfo
  deriving DecidableEq, Repr

def PduType.code : PduType → UInt8
  | .metadata => 0x01
  | .data => 0x02
  | .eof => 0x03
  | .nak => 0x04
  | .ack => 0x05
  | .resumeQuery => 0x06
  | .resumeInfo => 0x07

/-! ## Sender to receiver -/

structure MetadataPdu where
  transactionId : UInt32
  fileSize : UInt64
  chunkSize : UInt32
  packetSize : UInt32
  totalChunks : UInt32
  checksum : UInt32
  filename : CharArray 256
  deriving DecidableEq

/-- `data` holds the `dataLen` bytes the dispatcher copies. -/
structure DataPdu where
  transactionId : UInt32
  chunkIndex : UInt32
  packetIndex : UInt32
  totalPackets : UInt32
  dataLen : UInt32
  crc8 : UInt8
  data : Bytes
  deriving DecidableEq

structure EofPdu where
  transactionId : UInt32
  checksum : UInt32
  deriving DecidableEq

structure ResumeQueryPdu where
  transactionId : UInt32
  deriving DecidableEq

/-- `sizeof(MetadataPdu)`. -/
def sizeofMetadataPdu : Nat := 284

/-- `sizeof(DataPdu) - DEFAULT_PACKET_SIZE`, the header before `data`. -/
def sizeofDataHdr : Nat := 21

def MetadataPdu.toBytes (m : MetadataPdu) : Bytes :=
  le32 m.transactionId ++ (le64 m.fileSize ++ (le32 m.chunkSize ++ (le32 m.packetSize ++
    (le32 m.totalChunks ++ (le32 m.checksum ++ m.filename.toList)))))

def MetadataPdu.ofBytes (bs : Bytes) : MetadataPdu where
  transactionId := rd32 bs
  fileSize := rd64 (bs.drop 4)
  chunkSize := rd32 (bs.drop 12)
  packetSize := rd32 (bs.drop 16)
  totalChunks := rd32 (bs.drop 20)
  checksum := rd32 (bs.drop 24)
  filename := CharArray.ofBytes 256 (bs.drop 28)

def DataPdu.toBytes (d : DataPdu) : Bytes :=
  le32 d.transactionId ++ (le32 d.chunkIndex ++ (le32 d.packetIndex ++ (le32 d.totalPackets ++
    (le32 d.dataLen ++ (d.crc8 :: d.data)))))

def DataPdu.ofBytes (bs : Bytes) : DataPdu where
  transactionId := rd32 bs
  chunkIndex := rd32 (bs.drop 4)
  packetIndex := rd32 (bs.drop 8)
  totalPackets := rd32 (bs.drop 12)
  dataLen := rd32 (bs.drop 16)
  crc8 := rd8 (bs.drop 20)
  data := (bs.drop 21).take (rd32 (bs.drop 16)).toNat

def EofPdu.toBytes (e : EofPdu) : Bytes := le32 e.transactionId ++ le32 e.checksum

def EofPdu.ofBytes (bs : Bytes) : EofPdu where
  transactionId := rd32 bs
  checksum := rd32 (bs.drop 4)

/-- The PDUs the receiver handles. -/
inductive Pdu where
  | metadata (m : MetadataPdu)
  | data (d : DataPdu)
  | eof (e : EofPdu)
  | resumeQuery (q : ResumeQueryPdu)
  deriving DecidableEq

def Pdu.transactionId : Pdu → UInt32
  | .metadata m => m.transactionId
  | .data d => d.transactionId
  | .eof e => e.transactionId
  | .resumeQuery q => q.transactionId

/-- The struct a raw PDU is copied into; `none` when the dispatcher drops it. -/
def decodePdu : Bytes → Option Pdu
  | [] => none
  | type :: payload =>
    if type = PduType.metadata.code then
      if payload.length < sizeofMetadataPdu then none
      else some (.metadata (MetadataPdu.ofBytes payload))
    else if type = PduType.data.code then
      if payload.length < sizeofDataHdr then none
      else if (DataPdu.ofBytes payload).dataLen.toNat > defaultPacketSize then none
      else if payload.length < sizeofDataHdr + (DataPdu.ofBytes payload).dataLen.toNat then none
      else some (.data (DataPdu.ofBytes payload))
    else if type = PduType.eof.code then
      if payload.length < 8 then none else some (.eof (EofPdu.ofBytes payload))
    else if type = PduType.resumeQuery.code then
      if payload.length < 4 then none else some (.resumeQuery ⟨rd32 payload⟩)
    else none

/-! ## Receiver to sender -/

structure PacketNakRange where
  chunkIndex : UInt32
  firstPacket : UInt32
  lastPacket : UInt32
  deriving DecidableEq

structure NakPdu where
  transactionId : UInt32
  missingPackets : List PacketNakRange
  deriving DecidableEq

structure AckPdu where
  transactionId : UInt32
  chunkIndex : UInt32
  deriving DecidableEq

structure ResumeInfoPdu where
  transactionId : UInt32
  firstMissingChunk : UInt32
  deriving DecidableEq

def PacketNakRange.toBytes (r : PacketNakRange) : Bytes :=
  le32 r.chunkIndex ++ (le32 r.firstPacket ++ le32 r.lastPacket)

theorem PacketNakRange.toBytes_length (r : PacketNakRange) : r.toBytes.length = 12 := rfl

theorem length_flatMap_toBytes (rs : List PacketNakRange) :
    (rs.flatMap PacketNakRange.toBytes).length = rs.length * 12 := by
  induction rs with
  | nil => rfl
  | cons r rs ih =>
    rw [List.flatMap_cons, List.length_append, ih, List.length_cons, PacketNakRange.toBytes_length]
    omega

/-- The raw PDU of an acknowledgement. -/
def AckPdu.raw (a : AckPdu) : Bytes :=
  PduType.ack.code :: (le32 a.transactionId ++ le32 a.chunkIndex)

def ResumeInfoPdu.raw (i : ResumeInfoPdu) : Bytes :=
  PduType.resumeInfo.code :: (le32 i.transactionId ++ le32 i.firstMissingChunk)

/-- The range of missing chunks of the journal scan. -/
structure ChunkNakRange where
  firstChunk : UInt32
  lastChunk : UInt32
  deriving DecidableEq

/-! ## Decoding what the layouts write -/

theorem MetadataPdu.ofBytes_toBytes (m : MetadataPdu) (r : Bytes) :
    MetadataPdu.ofBytes (m.toBytes ++ r) = m := by
  have h4 (x : UInt32) (s : Bytes) : (le32 x ++ s).drop 4 = s := List.drop_left' (length_le32 x)
  have h8 (x : UInt64) (s : Bytes) : (le64 x ++ s).drop 8 = s := List.drop_left' (length_le64 x)
  simp only [MetadataPdu.ofBytes, MetadataPdu.toBytes, List.append_assoc, rd32_le32]
  simp only [show (12 : Nat) = 4 + 8 from rfl, show (16 : Nat) = 4 + (8 + 4) from rfl,
    show (20 : Nat) = 4 + (8 + (4 + 4)) from rfl, show (24 : Nat) = 4 + (8 + (4 + (4 + 4))) from rfl,
    show (28 : Nat) = 4 + (8 + (4 + (4 + (4 + 4)))) from rfl, ← List.drop_drop, h4, h8, rd32_le32,
    rd64_le64, CharArray.ofBytes_self]

theorem MetadataPdu.length_toBytes (m : MetadataPdu) : m.toBytes.length = sizeofMetadataPdu := by
  have h : m.filename.toList.length = 256 := m.filename.2
  simp [MetadataPdu.toBytes, sizeofMetadataPdu, h]

theorem decodePdu_metadata (m : MetadataPdu) :
    decodePdu (PduType.metadata.code :: m.toBytes) = some (.metadata m) := by
  have h := MetadataPdu.ofBytes_toBytes m []
  rw [List.append_nil] at h
  simp only [decodePdu, if_true, MetadataPdu.length_toBytes, Nat.lt_irrefl, if_false, h]

theorem DataPdu.ofBytes_toBytes (d : DataPdu) (hd : d.data.length = d.dataLen.toNat) (r : Bytes) :
    DataPdu.ofBytes (d.toBytes ++ r) = d := by
  have h4 (x : UInt32) (s : Bytes) : (le32 x ++ s).drop 4 = s := List.drop_left' (length_le32 x)
  have h1 (b : UInt8) (s : Bytes) : (b :: s).drop 1 = s := rfl
  simp only [DataPdu.ofBytes, DataPdu.toBytes, List.append_assoc, rd32_le32, List.cons_append]
  simp only [show (8 : Nat) = 4 + 4 from rfl, show (12 : Nat) = 4 + (4 + 4) from rfl,
    show (16 : Nat) = 4 + (4 + (4 + 4)) from rfl, show (20 : Nat) = 4 + (4 + (4 + (4 + 4))) from rfl,
    show (21 : Nat) = 4 + (4 + (4 + (4 + (4 + 1)))) from rfl, ← List.drop_drop, h4, h1, rd32_le32, rd8,
    List.headD_cons, ← hd, List.take_left']

theorem decodePdu_data (d : DataPdu) (hd : d.data.length = d.dataLen.toNat)
    (hl : d.dataLen.toNat ≤ defaultPacketSize) (pad : Bytes) :
    decodePdu (PduType.data.code :: (d.toBytes ++ pad)) = some (.data d) := by
  have h := d.ofBytes_toBytes hd pad
  have hlen : (d.toBytes ++ pad).length = sizeofDataHdr + d.dataLen.toNat + pad.length := by
    simp [DataPdu.toBytes, sizeofDataHdr, hd]; omega
  have hne : PduType.data.code ≠ PduType.metadata.code := by decide
  simp only [decodePdu, hne, if_false, if_true, h, hlen]
  rw [if_neg (by omega), if_neg (by omega), if_neg (by omega)]

/-- A PDU of type Data is dropped or read as one. -/
theorem decodePdu_data_code (payload : Bytes) : decodePdu (PduType.data.code :: payload) = none ∨
    ∃ d, decodePdu (PduType.data.code :: payload) = some (.data d) := by
  have hne : PduType.data.code ≠ PduType.metadata.code := by decide
  simp only [decodePdu, hne, if_false, if_true]
  split
  · exact .inl rfl
  · split
    · exact .inl rfl
    · split
      · exact .inl rfl
      · exact .inr ⟨_, rfl⟩

theorem decodePdu_eq_data {t : UInt8} {payload : Bytes} {d : DataPdu}
    (h : decodePdu (t :: payload) = some (.data d)) :
    t = PduType.data.code ∧ d = DataPdu.ofBytes payload := by
  simp only [decodePdu] at h
  split at h
  · split at h <;> cases h
  · split at h
    · next ht =>
      split at h
      · cases h
      · split at h
        · cases h
        · split at h
          · cases h
          · cases h; exact ⟨ht, rfl⟩
    · split at h
      · split at h <;> cases h
      · split at h
        · split at h <;> cases h
        · cases h

theorem decodePdu_eof (e : EofPdu) : decodePdu (PduType.eof.code :: e.toBytes) = some (.eof e) := by
  have h4 : (le32 e.transactionId ++ le32 e.checksum).drop 4 = le32 e.checksum :=
    List.drop_left' (length_le32 _)
  have h1 : PduType.eof.code ≠ PduType.metadata.code := by decide
  have h2 : PduType.eof.code ≠ PduType.data.code := by decide
  simp [decodePdu, h1, h2, EofPdu.toBytes, EofPdu.ofBytes, h4]

theorem decodePdu_resumeQuery (q : ResumeQueryPdu) :
    decodePdu (PduType.resumeQuery.code :: le32 q.transactionId) = some (.resumeQuery q) := by
  have h1 : PduType.resumeQuery.code ≠ PduType.metadata.code := by decide
  have h2 : PduType.resumeQuery.code ≠ PduType.data.code := by decide
  have h3 : PduType.resumeQuery.code ≠ PduType.eof.code := by decide
  simp [decodePdu, h1, h2, h3]

/-- A decoded Data PDU holds the number of bytes it announces. -/
theorem decodePdu_data_length {raw : Bytes} {d : DataPdu} (h : decodePdu raw = some (.data d)) :
    d.data.length = d.dataLen.toNat ∧ d.dataLen.toNat ≤ defaultPacketSize := by
  unfold decodePdu at h
  split at h
  · cases h
  · split at h
    · split at h <;> cases h
    · split at h
      · split at h
        · cases h
        · split at h
          · cases h
          · split at h
            · cases h
            · rename_i h1 h2
              cases h
              unfold sizeofDataHdr at h2
              refine ⟨?_, by omega⟩
              simp only [DataPdu.ofBytes, List.length_take, List.length_drop] at h1 h2 ⊢
              omega
      · split at h
        · split at h <;> cases h
        · split at h
          · split at h <;> cases h
          · cases h

/-- The type a decoded PDU was sent as. -/
def Pdu.type : Pdu → PduType
  | .metadata _ => .metadata
  | .data _ => .data
  | .eof _ => .eof
  | .resumeQuery _ => .resumeQuery

theorem decodePdu_type {raw : Bytes} {pdu : Pdu} (h : decodePdu raw = some pdu) :
    raw.head? = some pdu.type.code := by
  unfold decodePdu at h
  split at h
  · cases h
  next type payload =>
  rw [List.head?_cons]
  split at h
  · next ht =>
    split at h <;> cases h
    rw [ht]
    rfl
  · split at h
    · next ht =>
      split at h
      · cases h
      · split at h
        · cases h
        · split at h <;> cases h
          rw [ht]
          rfl
    · split at h
      · next ht =>
        split at h <;> cases h
        rw [ht]
        rfl
      · split at h
        · next ht =>
          split at h <;> cases h
          rw [ht]
          rfl
        · cases h

@[simp] theorem AckPdu.raw_inj {a b : AckPdu} : a.raw = b.raw ↔ a = b := by
  refine ⟨fun h => ?_, fun h => h ▸ rfl⟩
  simp only [AckPdu.raw, List.cons.injEq, true_and] at h
  obtain ⟨h1, h2⟩ := le32_append_inj h
  cases a; cases b
  simp only at h1 h2
  rw [h1, le32_inj h2]

end Cfdp
