import Cfdp.CfdpReceiver
import Cfdp.Session

/-!
# The two programs agree on the wire

The builders of `sender.py` write with `struct.pack`, the receiver copies into C
structs; the receiver's answers go the other way. `decodePdu` reads the packed
values back, the sender's tests read the values of `send_ack` and
`handle_resume_query` back, and a PDU cut short is dropped by a length test.
-/

namespace Cfdp

open Crash Prog LittleEndian FileBytes

/-! ## Builders, for any arguments -/

/-- `_send_metadata`. -/
def CfdpSender.sendMetadata (s : CfdpSender) (destFilename : List Char)
    (fileSize totalChunks checksum : Int) : Option Bytes :=
  match asciiEncode destFilename, packU64 fileSize, packU32 s.chunkSize, packU32 s.packetSize,
    packU32 totalChunks, packU32 checksum with
  | some name, some fileSize, some chunkSize, some packetSize, some totalChunks, some checksum =>
    some (PduType.metadata.code :: (le32 s.tid ++ (fileSize ++ (chunkSize ++ (packetSize ++
      (totalChunks ++ (checksum ++ ljust 256 (name.take 255))))))))
  | _, _, _, _, _, _ => none

/-- `_send_eof`. -/
def CfdpSender.sendEof (s : CfdpSender) (checksum : Int) : Option Bytes :=
  (packU32 checksum).map fun checksum => PduType.eof.code :: (le32 s.tid ++ checksum)

/-- The arguments of `_send_metadata` fit their fields. -/
structure CfdpSender.Fits (s : CfdpSender) (destFilename : List Char)
    (fileSize totalChunks checksum : Int) : Prop where
  ascii : ∀ c ∈ destFilename, c.toNat < 128
  fileSize : 0 ≤ fileSize ∧ fileSize < 2 ^ 64
  chunkSize : s.chunkSize < 2 ^ 32
  packetSize : s.packetSize < 2 ^ 32
  totalChunks : 0 ≤ totalChunks ∧ totalChunks < 2 ^ 32
  checksum : 0 ≤ checksum ∧ checksum < 2 ^ 32

theorem packU32_of_range {n : Int} (h : 0 ≤ n ∧ n < 2 ^ 32) :
    packU32 n = some (le32 (UInt32.ofNat n.toNat)) := by
  unfold packU32
  rw [if_pos h]

theorem packU32_isSome {n : Int} : (packU32 n).isSome = true ↔ 0 ≤ n ∧ n < 2 ^ 32 := by
  constructor
  · intro h
    obtain ⟨b, hb⟩ := Option.isSome_iff_exists.mp h
    obtain ⟨h0, hlt, -⟩ := packU32_eq_some hb
    exact ⟨h0, hlt⟩
  · intro h
    rw [packU32_of_range h]
    rfl

theorem CfdpSender.sendMetadata_isSome {s : CfdpSender} {destFilename : List Char}
    {fileSize totalChunks checksum : Int} :
    (s.sendMetadata destFilename fileSize totalChunks checksum).isSome = true ↔
      s.Fits destFilename fileSize totalChunks checksum := by
  constructor
  · intro h
    unfold CfdpSender.sendMetadata at h
    split at h
    · next h1 h2 h3 h4 h5 h6 =>
      obtain ⟨a2, b2, -⟩ := packU64_eq_some h2
      obtain ⟨-, b3, -⟩ := packU32_eq_some h3
      obtain ⟨-, b4, -⟩ := packU32_eq_some h4
      obtain ⟨a5, b5, -⟩ := packU32_eq_some h5
      obtain ⟨a6, b6, -⟩ := packU32_eq_some h6
      unfold asciiEncode at h1
      split at h1
      · next hs => exact ⟨by simpa using hs, ⟨a2, b2⟩, by omega, by omega, ⟨a5, b5⟩, a6, b6⟩
      · cases h1
    · cases h
  · intro h
    have hname : asciiEncode destFilename = some (destFilename.map fun c => UInt8.ofNat c.toNat) := by
      unfold asciiEncode
      rw [if_pos (by simpa using h.ascii)]
    have hsize : packU64 fileSize = some (le64 (UInt64.ofNat fileSize.toNat)) := by
      unfold packU64
      rw [if_pos h.fileSize]
    unfold CfdpSender.sendMetadata
    rw [hname, hsize, packU32_natCast h.chunkSize, packU32_natCast h.packetSize,
      packU32_of_range h.totalChunks, packU32_of_range h.checksum]
    rfl

theorem CfdpSender.sendEof_isSome {s : CfdpSender} {checksum : Int} :
    (s.sendEof checksum).isSome = true ↔ 0 ≤ checksum ∧ checksum < 2 ^ 32 := by
  unfold CfdpSender.sendEof
  rw [Option.isSome_map, packU32_isSome]

theorem Transfer.packDataHdr_of_packed {x : Transfer} {ci pi n len : Int} {crc : Nat} {a b c d : Bytes}
    {e : UInt8} (h1 : packU32 ci = some a) (h2 : packU32 pi = some b) (h3 : packU32 n = some c)
    (h4 : packU32 len = some d) (h5 : packU8 crc = some e) :
    (x.packDataHdr ci pi n len crc).isSome = true := by
  unfold Transfer.packDataHdr
  rw [h1, h2, h3, h4, h5]
  rfl

/-- The CRC-8 of the data always fits its byte. -/
theorem Transfer.packDataHdr_isSome {x : Transfer} {ci pi : Nat} {n len : Int} {data : Bytes} :
    (x.packDataHdr ci pi n len (Crc.crc8Py data)).isSome = true ↔
      ci < 2 ^ 32 ∧ pi < 2 ^ 32 ∧ (0 ≤ n ∧ n < 2 ^ 32) ∧ 0 ≤ len ∧ len < 2 ^ 32 := by
  constructor
  · intro h
    obtain ⟨b, hb⟩ := Option.isSome_iff_exists.mp h
    obtain ⟨⟨b1, b2, hn, hlen⟩, -⟩ := Transfer.packDataHdr_eq_some hb
    exact ⟨by omega, by omega, hn, hlen⟩
  · rintro ⟨h1, h2, h3, h4⟩
    exact Transfer.packDataHdr_of_packed (packU32_natCast h1) (packU32_natCast h2)
      (packU32_of_range h3) (packU32_of_range h4) (packU8_crc8Py data)

theorem Transfer.sendPacket_isSome {x : Transfer} {ci pi off : Nat} {totalPkts chunkSz : Int} :
    (x.sendPacket ci pi totalPkts off chunkSz).isSome = true ↔
      ci < 2 ^ 32 ∧ pi < 2 ^ 32 ∧ (0 ≤ totalPkts ∧ totalPkts < 2 ^ 32) ∧
        0 ≤ x.dataLen pi chunkSz ∧ x.dataLen pi chunkSz < 2 ^ 32 := by
  unfold Transfer.sendPacket
  rw [Option.isSome_map]
  exact packDataHdr_isSome

/-- The arguments `send` passes to `_send_metadata`. -/
theorem Transfer.metadataPdu_eq_sendMetadata (crc32 : UInt32 → Bytes → UInt32) (x : Transfer) :
    x.metadataPdu crc32 = if x.chunkSize = 0 then none
      else x.sendMetadata x.destFilename x.file.length x.totalChunks (x.checksum crc32).toNat := by
  have hsum : packU32 ((x.checksum crc32).toNat : Int) = some (le32 (x.checksum crc32)) := by
    rw [packU32_natCast (x.checksum crc32).toNat_lt, UInt32.ofNat_toNat]
  unfold metadataPdu CfdpSender.sendMetadata
  rw [hsum]
  split
  · rfl
  · cases asciiEncode x.destFilename <;> cases packU64 x.file.length <;> cases packU32 x.chunkSize <;>
      cases packU32 x.packetSize <;> cases packU32 x.totalChunks <;> rfl

theorem Transfer.eofPdu_eq_sendEof (crc32 : UInt32 → Bytes → UInt32) (x : Transfer) :
    x.sendEof (x.checksum crc32).toNat = some (x.eofPdu crc32) := by
  unfold CfdpSender.sendEof
  rw [packU32_natCast (x.checksum crc32).toNat_lt, UInt32.ofNat_toNat]
  rfl

/-! ## What the receiver reads -/

/-- The Metadata read has the values packed. -/
structure MetadataPdu.Carries (m : MetadataPdu) (s : CfdpSender) (destFilename : List Char)
    (fileSize totalChunks checksum : Int) : Prop where
  transactionId : m.transactionId = s.tid
  fileSize : (m.fileSize.toNat : Int) = fileSize
  chunkSize : m.chunkSize.toNat = s.chunkSize
  packetSize : m.packetSize.toNat = s.packetSize
  totalChunks : (m.totalChunks.toNat : Int) = totalChunks
  checksum : (m.checksum.toNat : Int) = checksum
  filename : (∀ c ∈ destFilename, c.toNat ≠ 0) →
    cstr m.filename.toList = (destFilename.map fun c => UInt8.ofNat c.toNat).take 255

/-- The Data PDU read has the values packed, and passes its CRC-8. -/
structure DataPdu.Carries (d : DataPdu) (s : CfdpSender)
    (chunkIndex packetIndex totalPkts dataLen : Int) (data : Bytes) : Prop where
  transactionId : d.transactionId = s.tid
  chunkIndex : (d.chunkIndex.toNat : Int) = chunkIndex
  packetIndex : (d.packetIndex.toNat : Int) = packetIndex
  totalPackets : (d.totalPackets.toNat : Int) = totalPkts
  dataLen : (d.dataLen.toNat : Int) = dataLen
  data : d.data = data
  valid : (Crc.crc8 d.data == d.crc8) = true

theorem toNat_ofNat32 {n : Int} (h0 : 0 ≤ n) (h : n < 2 ^ 32) :
    ((UInt32.ofNat n.toNat).toNat : Int) = n := by
  rw [UInt32.toNat_ofNat', Nat.mod_eq_of_lt (by omega)]
  omega

theorem asciiEncode_eq_some {s : List Char} {b : Bytes} (h : asciiEncode s = some b) :
    b = s.map (fun c => UInt8.ofNat c.toNat) ∧ ∀ c ∈ s, c.toNat < 128 := by
  unfold asciiEncode at h
  split at h
  · next hs =>
    cases h
    exact ⟨rfl, by simpa using hs⟩
  · cases h

/-- An ASCII name without NUL has no NUL byte. -/
theorem asciiEncode_ne_zero {s : List Char} {b : Bytes} (h : asciiEncode s = some b)
    (hs : ∀ c ∈ s, c.toNat ≠ 0) : ∀ x ∈ b, x ≠ 0 := by
  obtain ⟨rfl, hlt⟩ := asciiEncode_eq_some h
  intro x hx
  obtain ⟨c, hc, rfl⟩ := List.mem_map.mp hx
  intro h0
  have h1 := congrArg UInt8.toNat h0
  have h2 := hlt c hc
  have h3 := hs c hc
  rw [UInt8.toNat_ofNat', Nat.mod_eq_of_lt (by omega), show (0 : UInt8).toNat = 0 from rfl] at h1
  omega

variable {s : CfdpSender} {x : Transfer} {raw : Bytes}

theorem sendMetadata_read {destFilename : List Char} {fileSize totalChunks checksum : Int}
    (h : s.sendMetadata destFilename fileSize totalChunks checksum = some raw) :
    ∃ m : MetadataPdu, raw = PduType.metadata.code :: m.toBytes ∧
      m.Carries s destFilename fileSize totalChunks checksum := by
  unfold CfdpSender.sendMetadata at h
  split at h
  · next name fs cs ps tot sum h1 h2 h3 h4 h5 h6 =>
    cases h
    obtain ⟨a2, b2, rfl⟩ := packU64_eq_some h2
    obtain ⟨-, b3, rfl⟩ := packU32_eq_some h3
    obtain ⟨-, b4, rfl⟩ := packU32_eq_some h4
    obtain ⟨a5, b5, rfl⟩ := packU32_eq_some h5
    obtain ⟨a6, b6, rfl⟩ := packU32_eq_some h6
    have hname : (name.take 255).length ≤ 255 := by
      rw [List.length_take]
      omega
    refine ⟨⟨s.tid, UInt64.ofNat fileSize.toNat, UInt32.ofNat s.chunkSize, UInt32.ofNat s.packetSize,
      UInt32.ofNat totalChunks.toNat, UInt32.ofNat checksum.toNat,
        CharArray.ofBytes 256 (name.take 255)⟩, ?_, ?_⟩
    · rw [ljust_eq_ofBytes hname]
      rfl
    · refine ⟨rfl, ?_, ?_, ?_, toNat_ofNat32 a5 b5, toNat_ofNat32 a6 b6, fun hz => ?_⟩
      · show ((UInt64.ofNat fileSize.toNat).toNat : Int) = fileSize
        rw [UInt64.toNat_ofNat', Nat.mod_eq_of_lt (by omega)]
        omega
      · show (UInt32.ofNat s.chunkSize).toNat = s.chunkSize
        rw [UInt32.toNat_ofNat', Nat.mod_eq_of_lt (by omega)]
      · show (UInt32.ofNat s.packetSize).toNat = s.packetSize
        rw [UInt32.toNat_ofNat', Nat.mod_eq_of_lt (by omega)]
      · have hcut := cstr_ofBytes (n := 256) (s := name.take 255) (by omega) []
        rw [List.append_nil] at hcut
        show cstr (CharArray.ofBytes 256 (name.take 255)).toList = _
        rw [hcut, cstr_eq_self fun b hb => asciiEncode_ne_zero h1 hz b (List.mem_of_mem_take hb),
          (asciiEncode_eq_some h1).1]
  · cases h

theorem sendPacket_read {ci pi off : Nat} {totalPkts chunkSz : Int}
    (h : x.sendPacket ci pi totalPkts off chunkSz = some raw)
    (hlen : ((x.readAt (off + pi * x.packetSize) (x.dataLen pi chunkSz)).length : Int) =
      x.dataLen pi chunkSz) :
    ∃ d : DataPdu, raw = PduType.data.code ::
        (d.toBytes ++ zeros (x.packetSize - (x.dataLen pi chunkSz).toNat)) ∧
      d.data.length = d.dataLen.toNat ∧ d.Carries x.toCfdpSender ci pi totalPkts (x.dataLen pi chunkSz)
        (x.readAt (off + pi * x.packetSize) (x.dataLen pi chunkSz)) := by
  simp only [Transfer.sendPacket, Option.map_eq_some_iff] at h
  obtain ⟨header, hh, rfl⟩ := h
  obtain ⟨⟨b1, b2, ⟨a3, b3⟩, a4, b4⟩, rfl⟩ := Transfer.packDataHdr_eq_some hh
  generalize x.dataLen pi chunkSz = len at *
  generalize x.readAt (off + pi * x.packetSize) len = data at *
  refine ⟨⟨x.tid, UInt32.ofNat ci, UInt32.ofNat pi, UInt32.ofNat totalPkts.toNat, UInt32.ofNat len.toNat,
    Crc.crc8 data, data⟩, ?_, ?_, ?_⟩
  · simp only [DataPdu.toBytes, Int.toNat_natCast, List.append_assoc, List.cons_append, List.nil_append]
  · have := toNat_ofNat32 a4 b4
    show data.length = (UInt32.ofNat len.toNat).toNat
    omega
  · exact ⟨rfl, toNat_ofNat32 (n := ci) (by omega) b1, toNat_ofNat32 (n := pi) (by omega) b2,
      toNat_ofNat32 a3 b3, toNat_ofNat32 a4 b4, rfl, beq_self_eq_true _⟩

theorem sendEof_read {checksum : Int} (h : s.sendEof checksum = some raw) :
    ∃ e : EofPdu, raw = PduType.eof.code :: e.toBytes ∧ e.transactionId = s.tid ∧
      (e.checksum.toNat : Int) = checksum := by
  obtain ⟨c, hc, rfl⟩ := Option.map_eq_some_iff.mp h
  obtain ⟨h0, hlt, rfl⟩ := packU32_eq_some hc
  exact ⟨⟨s.tid, UInt32.ofNat checksum.toNat⟩, rfl, rfl, toNat_ofNat32 h0 hlt⟩

/-! ## Cuts -/

/-- A PDU that changes nothing and is not answered. -/
def Dropped (raw : Bytes) : Prop := ∀ env o w, onPduReceived env o raw w = ⟨[], .ok (), w⟩

theorem dropped_of_decodePdu (h : decodePdu raw = none) : Dropped raw := by
  intro env o w
  unfold onPduReceived
  rw [h]
  rfl

/-- A prefix is empty or keeps the type byte. -/
theorem prefix_cons {t : UInt8} {p payload : Bytes} (h : p <+: t :: payload) :
    p = [] ∨ ∃ q, p = t :: q ∧ q <+: payload := by
  cases p with
  | nil => exact .inl rfl
  | cons b q =>
    obtain ⟨rfl, hq⟩ := List.cons_prefix_cons.mp h
    exact .inr ⟨q, rfl, hq⟩

theorem dropped_short {t : UInt8} {q : Bytes}
    (ht : t = PduType.metadata.code ∧ q.length < sizeofMetadataPdu ∨
    t = PduType.data.code ∧ q.length < sizeofDataHdr ∨ t = PduType.eof.code ∧ q.length < 8 ∨
    t = PduType.resumeQuery.code ∧ q.length < 4) : Dropped (t :: q) := by
  refine dropped_of_decodePdu ?_
  rcases ht with ⟨rfl, hq⟩ | ⟨rfl, hq⟩ | ⟨rfl, hq⟩ | ⟨rfl, hq⟩ <;>
    simp [decodePdu, PduType.code, hq]

/-- A proper prefix of a PDU of fixed size is dropped. -/
theorem dropped_prefix {t : UInt8} {p payload : Bytes} (hp : p <+: t :: payload)
    (hne : p ≠ t :: payload) (ht : t = PduType.metadata.code ∧ payload.length = sizeofMetadataPdu ∨
      t = PduType.eof.code ∧ payload.length = 8 ∨ t = PduType.resumeQuery.code ∧ payload.length = 4) :
    Dropped p := by
  rcases prefix_cons hp with rfl | ⟨q, rfl, hq⟩
  · exact dropped_of_decodePdu rfl
  · have hlt : q.length < payload.length := by
      refine Nat.lt_of_le_of_ne hq.length_le fun he => hne ?_
      rw [hq.eq_of_length he]
    rcases ht with ⟨h1, h2⟩ | ⟨h1, h2⟩ | ⟨h1, h2⟩
    · exact dropped_short (.inl ⟨h1, by omega⟩)
    · exact dropped_short (.inr (.inr (.inl ⟨h1, by omega⟩)))
    · exact dropped_short (.inr (.inr (.inr ⟨h1, by omega⟩)))

/-- The header tells the length, also when the data is cut. -/
theorem DataPdu.dataLen_ofBytes (d : DataPdu) {q r : Bytes} (hq : q <+: d.toBytes ++ r)
    (hlen : sizeofDataHdr ≤ q.length) : (DataPdu.ofBytes q).dataLen = d.dataLen := by
  obtain ⟨r', hr'⟩ := hq
  have hd : (d.toBytes ++ r).drop 16 = le32 d.dataLen ++ (d.crc8 :: d.data ++ r) := by
    simp only [DataPdu.toBytes, List.append_assoc, List.cons_append]
    rw [drop_le32 12, drop_le32 8, drop_le32 4, drop_le32 0, List.drop_zero]
  have h4 : (q.drop 16).take 4 = ((d.toBytes ++ r).drop 16).take 4 := by
    rw [← hr', List.drop_append_of_le_length (by unfold sizeofDataHdr at hlen; omega),
      List.take_append_of_le_length (by rw [List.length_drop]; unfold sizeofDataHdr at hlen; omega)]
  show rd32 (q.drop 16) = _
  rw [rd32, h4, hd]
  exact rd32_le32 d.dataLen _

/-- A Data PDU cut before its data is complete is dropped. -/
theorem dropped_data (d : DataPdu) {p r : Bytes} (hp : p <+: PduType.data.code :: (d.toBytes ++ r))
    (hlen : p.length < 1 + sizeofDataHdr + d.dataLen.toNat) : Dropped p := by
  rcases prefix_cons hp with rfl | ⟨q, rfl, hq⟩
  · exact dropped_of_decodePdu rfl
  rw [List.length_cons] at hlen
  by_cases hhdr : q.length < sizeofDataHdr
  · exact dropped_short (.inr (.inl ⟨rfl, hhdr⟩))
  · have hl := d.dataLen_ofBytes hq (by omega)
    refine dropped_of_decodePdu ?_
    have hne : PduType.data.code ≠ PduType.metadata.code := by decide
    simp only [decodePdu, hne, if_false, if_true, hl]
    rw [if_neg hhdr]
    split
    · rfl
    · rw [if_pos (by omega)]

/-! ## The receiver's answers -/

/-- `send_ack` transmits the tid of the record and the chunk it is given. -/
theorem sendAck_transmits (ci : UInt32) (w : World) :
    sendAck ci w = ⟨[w.send (AckPdu.raw ⟨w.rx.state.transactionId, ci⟩)], .ok (),
      w.send (AckPdu.raw ⟨w.rx.state.transactionId, ci⟩)⟩ := rfl

/-- `handle_resume_query` transmits the tid of the query and the first missing chunk. -/
theorem handleResumeQuery_transmits (q : ResumeQueryPdu) (w : World) :
    handleResumeQuery q w =
      ⟨[w.send (ResumeInfoPdu.raw ⟨q.transactionId, firstMissingChunk w.rx q.transactionId⟩)], .ok (),
        w.send (ResumeInfoPdu.raw ⟨q.transactionId, firstMissingChunk w.rx q.transactionId⟩)⟩ := rfl

/-- `_query_resume` reads a ResumeInfo. -/
theorem Transfer.onInfo_raw (crc32 : UInt32 → Bytes → UInt32) (x : Transfer) (attempt : Nat)
    (i : ResumeInfoPdu) :
    x.onInfo crc32 attempt i.raw =
      if i.transactionId ≠ x.tid then x.queryFailed crc32 attempt
      else if i.firstMissingChunk = uint32Max then ([x.eofPdu crc32], .final)
      else x.sendChunk crc32 i.firstMissingChunk.toNat := by
  have h1 : rd32 (i.raw.drop 1) = i.transactionId := rd32_le32 _ _
  have h5 : rd32 (i.raw.drop 5) = i.firstMissingChunk := rd32_le32' _
  have hread : ¬ (i.raw.length < 9 ∨ i.raw.head? ≠ some PduType.resumeInfo.code) := by
    simp [ResumeInfoPdu.raw]
  unfold onInfo
  rw [if_neg hread, h1, h5]

/-- **The two programs agree on the wire**. A builder raises only on a value that does not fit its
field; for all values that can be packed:
* a Metadata, a Data PDU with its padding, an Eof and a ResumeQuery are read as packed, and
  handed to the handler of their kind;
* the sender reads the values of an acknowledgement and of a ResumeInfo as stored;
* a PDU that is cut is dropped. -/
theorem wire_agreement :
    (∀ (s : CfdpSender) (destFilename : List Char) (fileSize totalChunks checksum : Int),
      ((s.sendMetadata destFilename fileSize totalChunks checksum).isSome = true ↔
        s.Fits destFilename fileSize totalChunks checksum) ∧
      ∀ raw, s.sendMetadata destFilename fileSize totalChunks checksum = some raw →
        (∃ m, decodePdu raw = some (.metadata m) ∧
          m.Carries s destFilename fileSize totalChunks checksum ∧
          ∀ env o, onPduReceived env o raw = handleMetadata env o m) ∧
        ∀ p, p <+: raw → p ≠ raw → Dropped p) ∧
    (∀ (x : Transfer) (ci pi off : Nat) (totalPkts chunkSz : Int),
      ((x.sendPacket ci pi totalPkts off chunkSz).isSome = true ↔
        ci < 2 ^ 32 ∧ pi < 2 ^ 32 ∧ (0 ≤ totalPkts ∧ totalPkts < 2 ^ 32) ∧
          0 ≤ x.dataLen pi chunkSz ∧ x.dataLen pi chunkSz < 2 ^ 32) ∧
      ∀ raw, x.packetSize ≤ 4096 →
      ((x.readAt (off + pi * x.packetSize) (x.dataLen pi chunkSz)).length : Int) = x.dataLen pi chunkSz →
      x.sendPacket ci pi totalPkts off chunkSz = some raw →
        (∃ d, decodePdu raw = some (.data d) ∧
          d.Carries x.toCfdpSender ci pi totalPkts (x.dataLen pi chunkSz)
            (x.readAt (off + pi * x.packetSize) (x.dataLen pi chunkSz)) ∧
          ∀ env o, onPduReceived env o raw = handleData env o d) ∧
        raw.length = 22 + x.packetSize ∧
        ∀ p, p <+: raw → (p.length : Int) < 22 + x.dataLen pi chunkSz → Dropped p) ∧
    (∀ (s : CfdpSender) (checksum : Int),
      ((s.sendEof checksum).isSome = true ↔ 0 ≤ checksum ∧ checksum < 2 ^ 32) ∧
      ∀ raw, s.sendEof checksum = some raw →
        (∃ e, decodePdu raw = some (.eof e) ∧ e.transactionId = s.tid ∧
          (e.checksum.toNat : Int) = checksum ∧
          ∀ env o, onPduReceived env o raw = handleEof env o e) ∧
        ∀ p, p <+: raw → p ≠ raw → Dropped p) ∧
    (∀ x : Transfer, decodePdu x.queryPdu = some (.resumeQuery ⟨x.tid⟩) ∧
        (∀ env o, onPduReceived env o x.queryPdu = handleResumeQuery ⟨x.tid⟩) ∧
        ∀ p, p <+: x.queryPdu → p ≠ x.queryPdu → Dropped p) ∧
    (∀ (w : World) (ci : UInt32) (n : Nat), ∃ pdu,
      sendAck ci w = ⟨[w.send pdu], .ok (), w.send pdu⟩ ∧ acksChunk n pdu = (ci.toNat == n)) ∧
    ∀ (w : World) (q : ResumeQueryPdu) (crc32 : UInt32 → Bytes → UInt32) (x : Transfer)
    (attempt : Nat),
      ∃ pdu, handleResumeQuery q w = ⟨[w.send pdu], .ok (), w.send pdu⟩ ∧
        rd32 (pdu.drop 1) = q.transactionId ∧
        rd32 (pdu.drop 5) = firstMissingChunk w.rx q.transactionId ∧
        x.onInfo crc32 attempt pdu =
          if q.transactionId ≠ x.tid then x.queryFailed crc32 attempt
          else if firstMissingChunk w.rx q.transactionId = uint32Max then ([x.eofPdu crc32], .final)
          else x.sendChunk crc32 (firstMissingChunk w.rx q.transactionId).toNat := by
  refine ⟨?_, ?_, ?_, ?_, ?_, ?_⟩
  · intro s destFilename fileSize totalChunks checksum
    refine ⟨CfdpSender.sendMetadata_isSome, fun raw h => ?_⟩
    obtain ⟨m, rfl, hm⟩ := sendMetadata_read h
    have hdec := decodePdu_metadata m
    exact ⟨⟨m, hdec, hm, fun _ _ => by rw [onPduReceived, hdec]⟩, fun p hp hne =>
      dropped_prefix hp hne (.inl ⟨rfl, m.length_toBytes⟩)⟩
  · intro x ci pi off totalPkts chunkSz
    refine ⟨Transfer.sendPacket_isSome, fun raw hps hlen h => ?_⟩
    obtain ⟨d, rfl, hdata, hd⟩ := sendPacket_read h hlen
    have hle : x.dataLen pi chunkSz ≤ x.packetSize := Int.min_le_right _ _
    have hdl := hd.dataLen
    have hdec := decodePdu_data d hdata
      (show d.dataLen.toNat ≤ defaultPacketSize by unfold defaultPacketSize; omega)
      (zeros (x.packetSize - (x.dataLen pi chunkSz).toNat))
    refine ⟨⟨d, hdec, hd, fun _ _ => by rw [onPduReceived, hdec]⟩, ?_, fun p hp hcut =>
      dropped_data d hp ?_⟩
    · simp only [List.length_cons, List.length_append, DataPdu.toBytes, length_le32, hdata, zeros,
        List.length_replicate]
      omega
    · unfold sizeofDataHdr
      omega
  · intro s checksum
    refine ⟨CfdpSender.sendEof_isSome, fun raw h => ?_⟩
    obtain ⟨e, rfl, ht, hc⟩ := sendEof_read h
    have hdec := decodePdu_eof e
    exact ⟨⟨e, hdec, ht, hc, fun _ _ => by rw [onPduReceived, hdec]⟩, fun p hp hne =>
      dropped_prefix hp hne (.inr (.inl ⟨rfl, by simp [EofPdu.toBytes]⟩))⟩
  · intro x
    have hdec := Transfer.decodePdu_queryPdu (x := x)
    exact ⟨hdec, fun _ _ => by rw [onPduReceived, hdec], fun p hp hne =>
      dropped_prefix hp hne (.inr (.inr ⟨rfl, length_le32 _⟩))⟩
  · intro w ci n
    exact ⟨_, sendAck_transmits ci w, acksChunk_raw _ ci n⟩
  · intro w q crc32 x attempt
    exact ⟨_, handleResumeQuery_transmits q w, rd32_le32 _ _, rd32_le32' _, x.onInfo_raw crc32 attempt _⟩

/-- Five bytes: the Metadata, the second packet of the first chunk (one byte, one of padding), the
Eof and the query; each of them without its end; and an acknowledgement of chunk 1. -/
theorem wire_agreement_small : ∃ raw m raw' d raw'' e,
    Transfer.five.sendMetadata ['a'] 5 2 7 = some raw ∧ decodePdu raw = some (.metadata m) ∧
      cstr m.filename.toList = [0x61] ∧ (m.fileSize.toNat : Int) = 5 ∧ Dropped raw.dropLast ∧
    Transfer.five.sendPacket 0 1 2 0 3 = some raw' ∧ decodePdu raw' = some (.data d) ∧
      d.data = [0x63] ∧ raw'.length = 24 ∧ Dropped (raw'.take 22) ∧
    Transfer.five.sendEof 7 = some raw'' ∧ decodePdu raw'' = some (.eof e) ∧
      (e.checksum.toNat : Int) = 7 ∧ Dropped raw''.dropLast ∧
    decodePdu Transfer.five.queryPdu = some (.resumeQuery ⟨1⟩) ∧
      Dropped Transfer.five.queryPdu.dropLast ∧
    ∃ pdu w, sendAck 1 w = ⟨[w.send pdu], .ok (), w.send pdu⟩ ∧ acksChunk 1 pdu = true := by
  have hcut : ∀ {l : Bytes} {p : Pdu}, decodePdu l = some p → l.dropLast ≠ l := by
    intro l p hl he
    have hlen := congrArg List.length he
    rw [List.length_dropLast] at hlen
    obtain rfl : l = [] := List.eq_nil_of_length_eq_zero (by omega)
    cases hl
  have hname : ∀ c ∈ ['a'], c.toNat < 128 ∧ c.toNat ≠ 0 := by
    intro c hc
    rw [List.mem_singleton.mp hc]
    decide
  have hmeta := (wire_agreement.1 Transfer.five.toCfdpSender ['a'] 5 2 7).1.mpr
    ⟨fun c hc => (hname c hc).1, ⟨by omega, by omega⟩, (by decide : 3 < 2 ^ 32), (by decide : 2 < 2 ^ 32),
      ⟨by omega, by omega⟩, by omega, by omega⟩
  obtain ⟨raw, hraw⟩ := Option.isSome_iff_exists.mp hmeta
  obtain ⟨⟨m, hm, hc, -⟩, hdrop⟩ := (wire_agreement.1 _ _ _ _ _).2 raw hraw
  have hone : Transfer.five.dataLen 1 3 = 1 := by decide +kernel
  have hdata := (wire_agreement.2.1 Transfer.five 0 1 0 2 3).1.mpr
    ⟨by omega, by omega, ⟨by omega, by omega⟩, by omega, by omega⟩
  obtain ⟨raw', hraw'⟩ := Option.isSome_iff_exists.mp hdata
  obtain ⟨⟨d, hd, hc', -⟩, hlen, hdrop'⟩ :=
    (wire_agreement.2.1 _ _ _ _ _ _).2 raw' (by decide) (by decide +kernel) hraw'
  have heof := (wire_agreement.2.2.1 Transfer.five.toCfdpSender 7).1.mpr ⟨by omega, by omega⟩
  obtain ⟨raw'', hraw''⟩ := Option.isSome_iff_exists.mp heof
  obtain ⟨⟨e, he, -, hsum, -⟩, hdrop''⟩ := (wire_agreement.2.2.1 _ _).2 raw'' hraw''
  obtain ⟨hquery, -, hdropq⟩ := wire_agreement.2.2.2.1 Transfer.five
  let w : World := ⟨.construct .blank, ⟨none, none, fun _ => none⟩, []⟩
  obtain ⟨pdu, hsend, hack⟩ := wire_agreement.2.2.2.2.1 w 1 1
  refine ⟨raw, m, raw', d, raw'', e, hraw, hm, hc.filename fun c hc => (hname c hc).2, hc.fileSize,
    hdrop _ (List.dropLast_prefix _) (hcut hm), hraw', hd, hc'.data.trans (by decide +kernel), hlen,
    hdrop' _ (List.take_prefix _ _) ?_, hraw'', he, hsum,
    hdrop'' _ (List.dropLast_prefix _) (hcut he), hquery,
    hdropq _ (List.dropLast_prefix _) (hcut hquery), pdu, w, hsend, hack⟩
  have hle := List.length_take_le 22 raw'
  omega

end Cfdp
