import Cfdp.Crc
import Cfdp.Lib.FileBytes
import Cfdp.Types

/-!
# The PDUs of the sender

The PDU builders of `sender.py` for one file. Python integers are unbounded;
`struct.pack` raises on a value out of range, modelled by `none`, as are the
other exceptions a builder can raise. A `Transfer` is a file sent under a name
by a sender with given chunk and packet sizes.

What a builder writes, the receiver's dispatcher reads back: `metadataPdu_eq`,
`packet_eq` and the `decodePdu` lemmas.
-/

namespace Cfdp

open LittleEndian FileBytes

/-- The fields of `CfdpSender`, with the defaults of `__init__`. -/
structure CfdpSender where
  chunkSize : Nat := 1024 * 1024
  packetSize : Nat := 2048
  tid : UInt32 := 1
  deriving DecidableEq

/-- The arguments of `send` and the content of the file. -/
structure Transfer extends CfdpSender where
  file : Bytes
  destFilename : List Char
  deriving DecidableEq

/-! ## struct.pack -/

def packU8 (n : Nat) : Option UInt8 := if n < 2 ^ 8 then some (UInt8.ofNat n) else none

def packU32 (n : Int) : Option Bytes :=
  if 0 ≤ n ∧ n < 2 ^ 32 then some (le32 (UInt32.ofNat n.toNat)) else none

def packU64 (n : Int) : Option Bytes :=
  if 0 ≤ n ∧ n < 2 ^ 64 then some (le64 (UInt64.ofNat n.toNat)) else none

/-- `s.encode('ascii')`. -/
def asciiEncode (s : List Char) : Option Bytes :=
  if s.all fun c => c.toNat < 128 then some (s.map fun c => UInt8.ofNat c.toNat) else none

/-- `b.ljust(n, b'\\x00')`. -/
def ljust (n : Nat) (b : Bytes) : Bytes := b ++ zeros (n - b.length)

theorem packU32_eq_some {n : Int} {b : Bytes} (h : packU32 n = some b) :
    0 ≤ n ∧ n < 2 ^ 32 ∧ b = le32 (UInt32.ofNat n.toNat) := by
  unfold packU32 at h
  split at h
  · next hn => cases h; exact ⟨hn.1, hn.2, rfl⟩
  · cases h

theorem packU64_eq_some {n : Int} {b : Bytes} (h : packU64 n = some b) :
    0 ≤ n ∧ n < 2 ^ 64 ∧ b = le64 (UInt64.ofNat n.toNat) := by
  unfold packU64 at h
  split at h
  · next hn => cases h; exact ⟨hn.1, hn.2, rfl⟩
  · cases h

theorem packU32_natCast {n : Nat} (h : n < 2 ^ 32) : packU32 n = some (le32 (UInt32.ofNat n)) := by
  rw [packU32, if_pos ⟨by omega, by omega⟩, Int.toNat_natCast]

theorem packU64_natCast {n : Nat} (h : n < 2 ^ 64) : packU64 n = some (le64 (UInt64.ofNat n)) := by
  rw [packU64, if_pos ⟨by omega, by omega⟩, Int.toNat_natCast]

theorem packU8_crc8Py (data : Bytes) : packU8 (Crc.crc8Py data) = some (Crc.crc8 data) := by
  rw [Crc.crc8Py_eq, packU8, if_pos (Crc.crc8 data).toNat_lt, UInt8.ofNat_toNat]

theorem ljust_eq_ofBytes {b : Bytes} (h : b.length ≤ 255) :
    ljust 256 b = (CharArray.ofBytes 256 b).toList := by
  show b ++ zeros (256 - b.length) = (b ++ List.replicate 256 0).take 256
  rw [List.take_append, List.take_of_length_le (by omega), List.take_replicate, zeros]
  congr 2
  omega

/-! ## Builders -/

namespace Transfer

variable (crc32 : UInt32 → Bytes → UInt32) (x : Transfer)

/-- `(file_size + chunk_size - 1) // chunk_size`. -/
def totalChunks : Nat := (x.file.length + x.chunkSize - 1) / x.chunkSize

/-- `crc32_file(filepath)`. -/
def checksum : UInt32 := Crc.crc32FilePy crc32 x.file

/-- `_send_metadata`. A zero chunk size has already raised when `send` divides by it. -/
def metadataPdu : Option Bytes :=
  if x.chunkSize = 0 then none
  else
    match asciiEncode x.destFilename, packU64 x.file.length, packU32 x.chunkSize,
      packU32 x.packetSize, packU32 x.totalChunks with
    | some name, some fileSize, some chunkSize, some packetSize, some totalChunks =>
      some (PduType.metadata.code :: (le32 x.tid ++ (fileSize ++ (chunkSize ++ (packetSize ++
        (totalChunks ++ (le32 (x.checksum crc32) ++ ljust 256 (name.take 255))))))))
    | _, _, _, _, _ => none

/-- `struct.pack(FMT_DATA_HDR, …)`. -/
def packDataHdr (chunkIndex packetIndex totalPkts dataLen : Int) (crc8 : Nat) : Option Bytes :=
  match packU32 chunkIndex, packU32 packetIndex, packU32 totalPkts, packU32 dataLen, packU8 crc8 with
  | some ci, some pi, some n, some len, some crc =>
    some (le32 x.tid ++ (ci ++ (pi ++ (n ++ (len ++ [crc])))))
  | _, _, _, _, _ => none

/-- `f.seek(off)` and `f.read(n)`; a negative length reads to the end of the file. -/
def readAt (off : Nat) (n : Int) : Bytes := if n < 0 then x.file.drop off else slice x.file off n.toNat

/-- The `data_len` of `_send_packet`. -/
def dataLen (packetIndex : Nat) (chunkSz : Int) : Int :=
  min (chunkSz - packetIndex * x.packetSize) x.packetSize

/-- `_send_packet`. -/
def sendPacket (chunkIndex packetIndex : Nat) (totalPkts : Int) (chunkOff : Nat) (chunkSz : Int) :
    Option Bytes :=
  let dataLen := x.dataLen packetIndex chunkSz
  let data := x.readAt (chunkOff + packetIndex * x.packetSize) dataLen
  (x.packDataHdr chunkIndex packetIndex totalPkts dataLen (Crc.crc8Py data)).map fun header =>
    PduType.data.code :: (header ++ (data ++ zeros (x.packetSize - dataLen.toNat)))

/-- The size of a chunk as `_send_one_chunk` and `_on_nak` compute it. -/
def chunkSz (ci : Nat) : Int := min (x.file.length - ci * x.chunkSize) x.chunkSize

/-- The number of packets of a chunk, as they compute it. -/
def totalPkts (ci : Nat) : Int := (x.chunkSz ci + x.packetSize - 1) / x.packetSize

/-- One packet, as `_send_one_chunk` and `_on_nak` send it. -/
def packet (ci pi : Nat) : Option Bytes :=
  if x.packetSize = 0 then none
  else x.sendPacket ci pi (x.totalPkts ci) (ci * x.chunkSize) (x.chunkSz ci)

/-- `_send_eof`. -/
def eofPdu : Bytes := PduType.eof.code :: EofPdu.toBytes ⟨x.tid, x.checksum crc32⟩

/-- The query of `_query_resume`. -/
def queryPdu : Bytes := PduType.resumeQuery.code :: le32 x.tid

/-- The PDUs a sender of `x` can put on the line. -/
inductive Emits : Bytes → Prop where
  | metadata {raw} (h : x.metadataPdu crc32 = some raw) : Emits raw
  | data {raw} (ci pi : Nat) (h : x.packet ci pi = some raw) : Emits raw
  | eof : Emits (x.eofPdu crc32)
  | query : Emits x.queryPdu

/-! ## Geometry -/

/-- The length of chunk `ci`. -/
def chunkLen (ci : Nat) : Nat := min (x.file.length - ci * x.chunkSize) x.chunkSize

/-- The number of packets of chunk `ci`. -/
def numPackets (ci : Nat) : Nat := (x.chunkLen ci + x.packetSize - 1) / x.packetSize

/-- The length of packet `pi` of chunk `ci`. -/
def packetLen (ci pi : Nat) : Nat := min (x.chunkLen ci - pi * x.packetSize) x.packetSize

/-- The bytes of packet `pi` of chunk `ci`. -/
def packetData (ci pi : Nat) : Bytes :=
  slice x.file (ci * x.chunkSize + pi * x.packetSize) (x.packetLen ci pi)

/-- The Metadata the receiver sees. -/
def metadata (name : Bytes) : MetadataPdu where
  transactionId := x.tid
  fileSize := UInt64.ofNat x.file.length
  chunkSize := UInt32.ofNat x.chunkSize
  packetSize := UInt32.ofNat x.packetSize
  totalChunks := UInt32.ofNat x.totalChunks
  checksum := x.checksum crc32
  filename := CharArray.ofBytes 256 (name.take 255)

/-- The Data PDU the receiver sees. -/
def dataPdu (ci pi : Nat) : DataPdu where
  transactionId := x.tid
  chunkIndex := UInt32.ofNat ci
  packetIndex := UInt32.ofNat pi
  totalPackets := UInt32.ofNat (x.numPackets ci)
  dataLen := UInt32.ofNat (x.packetLen ci pi)
  crc8 := Crc.crc8 (x.packetData ci pi)
  data := x.packetData ci pi

/-- A file in chunks and packets of one byte, sent as `a`. -/
def small (file : Bytes) : Transfer where
  chunkSize := 1
  packetSize := 1
  file := file
  destFilename := ['a']

/-- Five bytes, sent as `a`: a chunk of three in two packets, and one of two. -/
def five : Transfer where
  chunkSize := 3
  packetSize := 2
  file := [0x61, 0x62, 0x63, 0x64, 0x65]
  destFilename := ['a']

/-- The bytes of `_send_metadata`, if it does not raise. -/
def metadataRaw : Bytes := (x.metadataPdu crc32).getD []

/-- The bytes of a packet, if it does not raise. -/
def packetRaw (ci pi : Nat) : Bytes := (x.packet ci pi).getD []

variable {crc32 x} {raw : Bytes} {ci pi : Nat}

theorem metadataRaw_eq (h : (x.metadataPdu crc32).isSome = true) :
    x.metadataPdu crc32 = some (x.metadataRaw crc32) := by
  unfold metadataRaw
  rw [Option.getD_of_ne_none (Option.isSome_iff_ne_none.mp h)]

theorem packetRaw_eq (x : Transfer) (ci pi : Nat) (h : (x.packet ci pi).isSome = true) :
    x.packet ci pi = some (x.packetRaw ci pi) := by
  unfold packetRaw
  rw [Option.getD_of_ne_none (Option.isSome_iff_ne_none.mp h)]

theorem emits_metadataRaw (h : (x.metadataPdu crc32).isSome = true) :
    x.Emits crc32 (x.metadataRaw crc32) := .metadata (metadataRaw_eq h)

theorem emits_packetRaw (h : (x.packet ci pi).isSome = true) : x.Emits crc32 (x.packetRaw ci pi) :=
  .data ci pi (x.packetRaw_eq ci pi h)

/-! ## What is sent and what is read -/

/-- The values `_send_metadata` can pack. -/
structure Packable (x : Transfer) (name : Bytes) : Prop where
  ascii : asciiEncode x.destFilename = some name
  fileSize : x.file.length < 2 ^ 64
  chunkSize : 0 < x.chunkSize ∧ x.chunkSize < 2 ^ 32
  packetSize : x.packetSize < 2 ^ 32
  totalChunks : x.totalChunks < 2 ^ 32

theorem metadataPdu_eq (h : x.metadataPdu crc32 = some raw) :
    ∃ name, x.Packable name ∧ raw = PduType.metadata.code :: (x.metadata crc32 name).toBytes := by
  unfold metadataPdu at h
  split at h
  · cases h
  next hc =>
  split at h
  · next name fileSize chunkSize packetSize totalChunks h1 h2 h3 h4 h5 =>
    cases h
    obtain ⟨-, b2, rfl⟩ := packU64_eq_some h2
    obtain ⟨-, b3, rfl⟩ := packU32_eq_some h3
    obtain ⟨-, b4, rfl⟩ := packU32_eq_some h4
    obtain ⟨-, b5, rfl⟩ := packU32_eq_some h5
    refine ⟨name, ⟨h1, by omega, by omega, by omega, by omega⟩, ?_⟩
    rw [ljust_eq_ofBytes (by rw [List.length_take]; omega)]
    simp only [Int.toNat_natCast]
    rfl
  · cases h

theorem metadataPdu_of_packable {name : Bytes} (h : x.Packable name) :
    x.metadataPdu crc32 = some (PduType.metadata.code :: (x.metadata crc32 name).toBytes) := by
  have hc : x.chunkSize ≠ 0 := by have := h.chunkSize; omega
  rw [metadataPdu, if_neg hc]
  simp only [h.ascii, packU64_natCast h.fileSize, packU32_natCast h.chunkSize.2,
    packU32_natCast h.packetSize, packU32_natCast h.totalChunks]
  rw [ljust_eq_ofBytes (by rw [List.length_take]; omega)]
  rfl

theorem packable_five : five.Packable [0x61] :=
  ⟨by decide, by decide, by decide, by decide, by decide⟩

theorem metadataRaw_five : five.metadataRaw crc32 =
    PduType.metadata.code :: (five.metadata crc32 [0x61]).toBytes := by
  unfold metadataRaw
  rw [metadataPdu_of_packable packable_five, Option.getD_some]

theorem decodePdu_metadataPdu (h : x.metadataPdu crc32 = some raw) :
    ∃ name, x.Packable name ∧ decodePdu raw = some (.metadata (x.metadata crc32 name)) := by
  obtain ⟨name, hp, rfl⟩ := metadataPdu_eq h
  exact ⟨name, hp, decodePdu_metadata _⟩

theorem decodePdu_eofPdu : decodePdu (x.eofPdu crc32) = some (.eof ⟨x.tid, x.checksum crc32⟩) :=
  decodePdu_eof _

theorem decodePdu_queryPdu : decodePdu x.queryPdu = some (.resumeQuery ⟨x.tid⟩) :=
  decodePdu_resumeQuery ⟨x.tid⟩

/-- The position of a packet that can be packed: inside the file and its chunk. -/
structure InFile (x : Transfer) (ci pi : Nat) : Prop where
  packetSize : 0 < x.packetSize
  chunk : ci * x.chunkSize ≤ x.file.length
  packet : pi * x.packetSize ≤ x.chunkLen ci
  chunkIndex : ci < 2 ^ 32
  packetIndex : pi < 2 ^ 32
  numPackets : x.numPackets ci < 2 ^ 32
  packetLen : x.packetLen ci pi < 2 ^ 32

theorem InFile.int (hc : ci * x.chunkSize ≤ x.file.length) :
    x.chunkSz ci = x.chunkLen ci := by
  have : ((ci * x.chunkSize : Nat) : Int) = ci * x.chunkSize := by push_cast; ring
  simp only [chunkSz, chunkLen]
  omega

theorem totalPkts_eq (hp : 0 < x.packetSize) (hc : ci * x.chunkSize ≤ x.file.length) :
    x.totalPkts ci = x.numPackets ci := by
  unfold totalPkts
  rw [InFile.int hc, numPackets]
  push_cast
  congr 1
  omega

theorem packDataHdr_eq_some {c p n len : Int} {data b : Bytes}
    (h : x.packDataHdr c p n len (Crc.crc8Py data) = some b) :
    (c < 2 ^ 32 ∧ p < 2 ^ 32 ∧ (0 ≤ n ∧ n < 2 ^ 32) ∧ 0 ≤ len ∧ len < 2 ^ 32) ∧
      b = le32 x.tid ++ (le32 (UInt32.ofNat c.toNat) ++ (le32 (UInt32.ofNat p.toNat) ++
        (le32 (UInt32.ofNat n.toNat) ++ (le32 (UInt32.ofNat len.toNat) ++ [Crc.crc8 data])))) := by
  unfold packDataHdr at h
  rw [packU8_crc8Py] at h
  split at h
  · next h1 h2 h3 h4 h5 =>
    cases h; cases h5
    obtain ⟨-, b1, rfl⟩ := packU32_eq_some h1
    obtain ⟨-, b2, rfl⟩ := packU32_eq_some h2
    obtain ⟨a3, b3, rfl⟩ := packU32_eq_some h3
    obtain ⟨a4, b4, rfl⟩ := packU32_eq_some h4
    exact ⟨⟨b1, b2, ⟨a3, b3⟩, a4, b4⟩, rfl⟩
  · cases h

theorem readAt_packetLen :
    x.readAt (ci * x.chunkSize + pi * x.packetSize) (x.packetLen ci pi : Int) = x.packetData ci pi := by
  unfold readAt
  rw [if_neg (by omega), Int.toNat_natCast, packetData]

theorem packet_eq (h : x.packet ci pi = some raw) :
    x.InFile ci pi ∧ raw = PduType.data.code ::
      ((x.dataPdu ci pi).toBytes ++ zeros (x.packetSize - x.packetLen ci pi)) := by
  unfold packet at h
  split at h
  · cases h
  next hp =>
  simp only [sendPacket, Option.map_eq_some_iff] at h
  obtain ⟨header, hh, rfl⟩ := h
  obtain ⟨⟨b1, b2, ⟨-, b3⟩, b4, b5⟩, rfl⟩ := packDataHdr_eq_some hh
  have hci : ((ci * x.chunkSize : Nat) : Int) = ci * x.chunkSize := by push_cast; ring
  have hpi : ((pi * x.packetSize : Nat) : Int) = pi * x.packetSize := by push_cast; ring
  have hc : ci * x.chunkSize ≤ x.file.length := by
    by_contra hc
    simp only [dataLen, chunkSz] at b4
    omega
  have hsz := InFile.int hc
  have htot := totalPkts_eq (by omega) hc
  have hpk : pi * x.packetSize ≤ x.chunkLen ci := by
    rw [hsz, dataLen] at b4
    omega
  have hlen : x.dataLen pi (x.chunkSz ci) = (x.packetLen ci pi : Int) := by
    rw [hsz, dataLen, packetLen]
    omega
  rw [hlen] at b4 b5 ⊢
  rw [htot] at b3 ⊢
  rw [readAt_packetLen]
  refine ⟨⟨by omega, hc, hpk, by omega, by omega, by omega, by omega⟩, ?_⟩
  simp only [Int.toNat_natCast, DataPdu.toBytes, dataPdu, List.append_assoc, List.cons_append,
    List.nil_append]

theorem packet_of_inFile (h : x.InFile ci pi) :
    x.packet ci pi = some (PduType.data.code ::
      ((x.dataPdu ci pi).toBytes ++ zeros (x.packetSize - x.packetLen ci pi))) := by
  have hp := h.packetSize
  have hpi : ((pi * x.packetSize : Nat) : Int) = pi * x.packetSize := by push_cast; ring
  have hpk := h.packet
  have hlen : x.dataLen pi (x.chunkSz ci) = (x.packetLen ci pi : Int) := by
    rw [InFile.int h.chunk, dataLen, packetLen]
    omega
  rw [packet, if_neg (by omega), sendPacket, hlen, totalPkts_eq hp h.chunk, readAt_packetLen, packDataHdr,
    packU32_natCast h.chunkIndex, packU32_natCast h.packetIndex, packU32_natCast h.numPackets,
    packU32_natCast h.packetLen, packU8_crc8Py]
  simp only [Option.map_some, Int.toNat_natCast, DataPdu.toBytes, dataPdu, List.append_assoc,
    List.cons_append, List.nil_append]

section

variable (h : x.InFile ci pi)

include h

theorem InFile.end_le : ci * x.chunkSize + pi * x.packetSize + x.packetLen ci pi ≤ x.file.length := by
  have h1 := h.chunk; have h2 := h.packet
  have h3 : x.chunkLen ci ≤ x.file.length - ci * x.chunkSize := Nat.min_le_left _ _
  have h4 : x.packetLen ci pi ≤ x.chunkLen ci - pi * x.packetSize := Nat.min_le_left _ _
  omega

theorem InFile.length_packetData : (x.packetData ci pi).length = x.packetLen ci pi :=
  length_slice_of_le h.end_le

theorem InFile.toNat_packetLen : (x.dataPdu ci pi).dataLen.toNat = x.packetLen ci pi := by
  simp only [dataPdu, UInt32.toNat_ofNat', Nat.mod_eq_of_lt h.packetLen]

theorem InFile.toNat_chunkIndex : (x.dataPdu ci pi).chunkIndex.toNat = ci := by
  simp only [dataPdu, UInt32.toNat_ofNat', Nat.mod_eq_of_lt h.chunkIndex]

theorem InFile.toNat_packetIndex : (x.dataPdu ci pi).packetIndex.toNat = pi := by
  simp only [dataPdu, UInt32.toNat_ofNat', Nat.mod_eq_of_lt h.packetIndex]

theorem InFile.toNat_totalPackets : (x.dataPdu ci pi).totalPackets.toNat = x.numPackets ci := by
  simp only [dataPdu, UInt32.toNat_ofNat', Nat.mod_eq_of_lt h.numPackets]

theorem InFile.decodePdu (hp : x.packetSize ≤ defaultPacketSize) (pad : Bytes) :
    decodePdu (PduType.data.code :: ((x.dataPdu ci pi).toBytes ++ pad)) =
      some (.data (x.dataPdu ci pi)) := by
  refine decodePdu_data _ ?_ ?_ pad
  · rw [h.toNat_packetLen]; exact h.length_packetData
  · rw [h.toNat_packetLen]
    have : x.packetLen ci pi ≤ x.packetSize := Nat.min_le_right _ _
    omega

end

theorem decodePdu_packet (h : x.packet ci pi = some raw) (hp : x.packetSize ≤ defaultPacketSize) :
    x.InFile ci pi ∧ decodePdu raw = some (.data (x.dataPdu ci pi)) := by
  obtain ⟨hin, rfl⟩ := packet_eq h
  exact ⟨hin, hin.decodePdu hp _⟩

/-- A Metadata among the PDUs of `x` is that of `x`. -/
theorem Emits.metadata_eq {m : MetadataPdu} (h : x.Emits crc32 raw)
    (hd : Cfdp.decodePdu raw = some (.metadata m)) :
    ∃ name, x.Packable name ∧ m = x.metadata crc32 name := by
  cases h with
  | metadata hm =>
    obtain ⟨name, hp, hd'⟩ := decodePdu_metadataPdu hm
    rw [hd'] at hd; cases hd
    exact ⟨name, hp, rfl⟩
  | data ci pi hpk =>
    obtain ⟨-, rfl⟩ := packet_eq hpk
    rcases decodePdu_data_code ((x.dataPdu ci pi).toBytes ++ zeros (x.packetSize - x.packetLen ci pi)) with
      hn | ⟨d, hd'⟩
    · rw [hn] at hd; cases hd
    · rw [hd'] at hd; cases hd
  | eof => rw [decodePdu_eofPdu] at hd; cases hd
  | query => rw [decodePdu_queryPdu] at hd; cases hd

end Transfer

end Cfdp
