import Cfdp.CfdpReceiver

/-!
# Parsing NAKs and ACKs

`parse_nak` and `parse_ack` of `PduCodec.h`. They read through pointers into the received
vector; a read that leaves the vector has no result here (`peek`). `parseNak_eq` and
`parseAck_eq` say what is parsed, and that every read stays inside.
-/

namespace Cfdp

open LittleEndian

/-- `sizeof(NakHeader)`. -/
def sizeofNakHeader : Nat := 8

/-- `sizeof(PacketNakRange)`. -/
def sizeofPacketNakRange : Nat := 12

def PacketNakRange.ofBytes (bs : Bytes) : PacketNakRange where
  chunkIndex := rd32 bs
  firstPacket := rd32 (bs.drop 4)
  lastPacket := rd32 (bs.drop 8)

/-- A read of `n` bytes at offset `off` of the vector, `none` if it leaves it. -/
def peek (pdu : Bytes) (off n : Nat) : Option Bytes :=
  if off + n ≤ pdu.length then some ((pdu.drop off).take n) else none

/-- `assign(ranges, ranges + count)`, the ranges starting at offset `off`. -/
def assignRanges (pdu : Bytes) : Nat → Nat → Option (List PacketNakRange)
  | _, 0 => some []
  | off, count + 1 =>
    match peek pdu off sizeofPacketNakRange, assignRanges pdu (off + sizeofPacketNakRange) count with
    | some r, some rs => some (PacketNakRange.ofBytes r :: rs)
    | _, _ => none

/-- `parse_nak`: whether the PDU was parsed, and `out` after. The sizes are compared as `size_t`. -/
def parseNak (pdu : Bytes) (out : NakPdu) : Option (Bool × NakPdu) :=
  if pdu.length < 1 + sizeofNakHeader then some (false, out)
  else
    match peek pdu 5 4 with
    | none => none
    | some count =>
      if pdu.length < ((1 + 8 : UInt64) + (rd32 count).toUInt64 * 12).toNat then some (false, out)
      else
        match peek pdu 1 4, assignRanges pdu (1 + sizeofNakHeader) (rd32 count).toNat with
        | some transactionId, some ranges => some (true, ⟨rd32 transactionId, ranges⟩)
        | _, _ => none

/-- `sizeof(AckHeader)`. -/
def sizeofAckHeader : Nat := 8

/-- `parse_ack`, whatever the type of the PDU: whether it was parsed, and `out` after. -/
def parseAck (pdu : Bytes) (out : AckPdu) : Option (Bool × AckPdu) :=
  if pdu.length < 1 + sizeofAckHeader then some (false, out)
  else
    match peek pdu 1 4, peek pdu 5 4 with
    | some transactionId, some chunkIndex => some (true, ⟨rd32 transactionId, rd32 chunkIndex⟩)
    | _, _ => none

/-! ## The ranges -/

/-- The first `n` ranges of a byte sequence. -/
def rangesOf : Nat → Bytes → List PacketNakRange
  | 0, _ => []
  | n + 1, bs => PacketNakRange.ofBytes bs :: rangesOf n (bs.drop 12)

@[simp] theorem length_rangesOf (n : Nat) (bs : Bytes) : (rangesOf n bs).length = n := by
  induction n generalizing bs with
  | zero => rfl
  | succ n ih => rw [rangesOf, List.length_cons, ih]

theorem PacketNakRange.ofBytes_take (bs : Bytes) :
    PacketNakRange.ofBytes (bs.take sizeofPacketNakRange) = PacketNakRange.ofBytes bs := by
  have h0 := rd32_drop_take (n := 12) (k := 0) (by omega) bs
  rw [List.drop_zero, List.drop_zero] at h0
  unfold PacketNakRange.ofBytes sizeofPacketNakRange
  rw [h0, rd32_drop_take (by omega), rd32_drop_take (by omega)]

theorem PacketNakRange.ofBytes_toBytes (r : PacketNakRange) (bs : Bytes) :
    PacketNakRange.ofBytes (r.toBytes ++ bs) = r := by
  simp only [ofBytes, toBytes, List.append_assoc, rd32_le32, drop_le32 0, drop_le32 4, List.drop_zero]

/-- Twelve bytes are those of the range they hold. -/
theorem PacketNakRange.toBytes_ofBytes {bs : Bytes} (h : 12 ≤ bs.length) :
    (PacketNakRange.ofBytes bs).toBytes = bs.take 12 := by
  have h1 : 4 ≤ (bs.drop 4).length := by rw [List.length_drop]; omega
  have h2 : 4 ≤ (bs.drop 8).length := by rw [List.length_drop]; omega
  simp only [ofBytes, toBytes]
  rw [le32_rd32 (by omega), le32_rd32 h1, le32_rd32 h2, show (12 : Nat) = 4 + (4 + 4) from rfl,
    List.take_add, List.take_add, List.drop_drop]

theorem rangesOf_flatMap (rs : List PacketNakRange) (bs : Bytes) :
    rangesOf rs.length (rs.flatMap PacketNakRange.toBytes ++ bs) = rs := by
  induction rs with
  | nil => rfl
  | cons r rs ih =>
    have hdrop : (r.toBytes ++ (rs.flatMap PacketNakRange.toBytes ++ bs)).drop 12 =
        rs.flatMap PacketNakRange.toBytes ++ bs := List.drop_left' r.toBytes_length
    rw [List.length_cons, rangesOf, List.flatMap_cons, List.append_assoc, hdrop, ih,
      PacketNakRange.ofBytes_toBytes]

theorem flatMap_rangesOf {n : Nat} {bs : Bytes} (h : 12 * n ≤ bs.length) :
    (rangesOf n bs).flatMap PacketNakRange.toBytes = bs.take (12 * n) := by
  induction n generalizing bs with
  | zero => rfl
  | succ n ih =>
    have hrest : 12 * n ≤ (bs.drop 12).length := by rw [List.length_drop]; omega
    rw [rangesOf, List.flatMap_cons, ih hrest, PacketNakRange.toBytes_ofBytes (by omega),
      show 12 * (n + 1) = 12 + 12 * n by omega, List.take_add]

theorem assignRanges_eq {pdu : Bytes} {off n : Nat} (h : off + 12 * n ≤ pdu.length) :
    assignRanges pdu off n = some (rangesOf n (pdu.drop off)) := by
  induction n generalizing off with
  | zero => rfl
  | succ n ih =>
    have hp : peek pdu off sizeofPacketNakRange = some ((pdu.drop off).take sizeofPacketNakRange) :=
      if_pos (by unfold sizeofPacketNakRange; omega)
    have hrest := @ih (off + 12) (by omega)
    rw [assignRanges, hp, show off + sizeofPacketNakRange = off + 12 from rfl, hrest, rangesOf,
      List.drop_drop]
    simp only [PacketNakRange.ofBytes_take]

/-! ## The whole PDU -/

/-- The count field of a NAK. -/
def nakCount (pdu : Bytes) : Nat := (rd32 (pdu.drop 5)).toNat

/-- The vector holds the header and the ranges it declares. -/
def HoldsNak (pdu : Bytes) : Prop := 9 + 12 * nakCount pdu ≤ pdu.length

theorem toNat_nakSize (count : UInt32) :
    ((1 + 8 : UInt64) + count.toUInt64 * 12).toNat = 9 + 12 * count.toNat := by
  have h := count.toNat_lt
  simp only [UInt64.toNat_add, UInt64.toNat_mul, UInt32.toNat_toUInt64,
    show (1 : UInt64).toNat = 1 from rfl, show (8 : UInt64).toNat = 8 from rfl,
    show (12 : UInt64).toNat = 12 from rfl]
  omega

/-- What fits is parsed, without leaving the vector. -/
theorem parseNak_eq {pdu : Bytes} (h : HoldsNak pdu) (out : NakPdu) :
    parseNak pdu out =
      some (true, ⟨rd32 (pdu.drop 1), rangesOf (nakCount pdu) (pdu.drop 9)⟩) := by
  unfold HoldsNak at h
  have h5 : peek pdu 5 4 = some ((pdu.drop 5).take 4) := if_pos (by omega)
  have h1 : peek pdu 1 4 = some ((pdu.drop 1).take 4) := if_pos (by omega)
  have hr : assignRanges pdu (1 + sizeofNakHeader) (rd32 (pdu.drop 5)).toNat =
      some (rangesOf (nakCount pdu) (pdu.drop 9)) := assignRanges_eq h
  have hsize := toNat_nakSize (rd32 (pdu.drop 5))
  unfold parseNak
  rw [if_neg (by unfold sizeofNakHeader; omega), h5]
  simp only [rd32_take, hsize]
  rw [if_neg (by unfold nakCount at h; omega), h1, hr]
  simp only [rd32_take]

/-- What does not fit is rejected, without leaving the vector either. -/
theorem parseNak_short {pdu : Bytes} (h : ¬ HoldsNak pdu) (out : NakPdu) :
    parseNak pdu out = some (false, out) := by
  unfold HoldsNak nakCount at h
  unfold parseNak
  by_cases h9 : pdu.length < 1 + sizeofNakHeader
  · rw [if_pos h9]
  unfold sizeofNakHeader at h9
  have h5 : peek pdu 5 4 = some ((pdu.drop 5).take 4) := if_pos (by omega)
  rw [if_neg (by unfold sizeofNakHeader; omega), h5]
  simp only [rd32_take, toNat_nakSize]
  rw [if_pos (by omega)]

theorem parseAck_eq (pdu : Bytes) (out : AckPdu) : parseAck pdu out =
    if 9 ≤ pdu.length then some (true, ⟨rd32 (pdu.drop 1), rd32 (pdu.drop 5)⟩)
    else some (false, out) := by
  unfold parseAck sizeofAckHeader
  by_cases h : 9 ≤ pdu.length
  · have h1 : peek pdu 1 4 = some ((pdu.drop 1).take 4) := if_pos (by omega)
    have h5 : peek pdu 5 4 = some ((pdu.drop 5).take 4) := if_pos (by omega)
    rw [if_neg (by omega), if_pos h, h1, h5]
    simp only [rd32_take]
  · rw [if_pos (by omega), if_neg h]

theorem length_serializeNak (nak : NakPdu) :
    (serializeNak nak).length = 9 + 12 * nak.missingPackets.length := by
  simp only [serializeNak, List.length_cons, List.length_append, length_le32, length_flatMap_toBytes]
  omega

theorem nakCount_take {nak : NakPdu} (h : nak.missingPackets.length < 2 ^ 32) {k : Nat} (hk : 9 ≤ k) :
    nakCount ((serializeNak nak).take k) = nak.missingPackets.length := by
  have h5 : (serializeNak nak).drop 5 = le32 (UInt32.ofNat nak.missingPackets.length) ++
      nak.missingPackets.flatMap PacketNakRange.toBytes := by
    unfold serializeNak
    rw [List.drop_succ_cons, drop_le32 0, List.drop_zero]
  unfold nakCount
  rw [rd32_drop_take (by omega), h5, rd32_le32, UInt32.toNat_ofNat', Nat.mod_eq_of_lt h]

/-- **NAKs are read back, truncated ones are rejected, and what is accepted is what would be
written**; no read leaves the vector. -/
theorem parseNak_codec (out : NakPdu) :
    (∀ nak : NakPdu, nak.missingPackets.length < 2 ^ 32 →
      parseNak (serializeNak nak) out = some (true, nak) ∧
        ∀ pdu, pdu <+: serializeNak nak → pdu ≠ serializeNak nak →
          parseNak pdu out = some (false, out)) ∧
    ∀ pdu, ∃ ok nak, parseNak pdu out = some (ok, nak) ∧
      (ok = true → nak.missingPackets.length = (rd32 (pdu.drop 5)).toNat ∧
        (serializeNak nak).drop 1 = (pdu.drop 1).take (8 + 12 * nak.missingPackets.length)) := by
  refine ⟨fun nak hn => ?_, fun pdu => ?_⟩
  · have hlen := length_serializeNak nak
    refine ⟨?_, fun pdu hp hne => ?_⟩
    · have hcount : nakCount (serializeNak nak) = nak.missingPackets.length := by
        have := nakCount_take hn (k := (serializeNak nak).length) (by omega)
        rwa [List.take_length] at this
      have hholds : HoldsNak (serializeNak nak) := by
        unfold HoldsNak
        omega
      have hranges := rangesOf_flatMap nak.missingPackets []
      rw [List.append_nil] at hranges
      rw [parseNak_eq hholds, hcount, serializeNak]
      simp only [List.drop_succ_cons, List.drop_zero, rd32_le32, drop_le32 4, drop_le32 0, hranges]
    · have hlt : pdu.length < (serializeNak nak).length :=
        Nat.lt_of_le_of_ne hp.length_le fun he => hne (hp.eq_of_length he)
      apply parseNak_short
      intro hholds
      unfold HoldsNak at hholds
      have hcount := nakCount_take hn (k := pdu.length) (by omega)
      rw [← List.prefix_iff_eq_take.mp hp] at hcount
      omega
  · by_cases h : HoldsNak pdu
    · refine ⟨_, _, parseNak_eq h out, fun _ => ⟨length_rangesOf _ _, ?_⟩⟩
      unfold HoldsNak at h
      have hc : 4 ≤ (pdu.drop 5).length := by rw [List.length_drop]; omega
      have ht : 4 ≤ (pdu.drop 1).length := by rw [List.length_drop]; omega
      have hr : 12 * nakCount pdu ≤ (pdu.drop 9).length := by rw [List.length_drop]; omega
      simp only [serializeNak, List.drop_succ_cons, List.drop_zero, length_rangesOf]
      rw [nakCount, UInt32.ofNat_toNat, le32_rd32 ht, le32_rd32 hc, ← nakCount, flatMap_rangesOf hr,
        show 8 + 12 * nakCount pdu = 4 + (4 + 12 * nakCount pdu) by omega, List.take_add, List.take_add,
        List.drop_drop, List.drop_drop]
    · exact ⟨false, out, parseNak_short h out, fun hf => by cases hf⟩

/-- Three ranges of one chunk. -/
def threeRanges : NakPdu := ⟨1, [⟨0, 2, 3⟩, ⟨0, 5, 5⟩, ⟨0, 7, 9⟩]⟩

/-- They are read back, also when a byte follows; they are rejected without the last byte. -/
theorem parseNak_codec_small :
    parseNak (serializeNak threeRanges) ⟨0, []⟩ = some (true, threeRanges) ∧
      parseNak (serializeNak threeRanges).dropLast ⟨0, []⟩ = some (false, ⟨0, []⟩) ∧
      ∃ nak, parseNak (serializeNak threeRanges ++ [0xFF]) ⟨0, []⟩ = some (true, nak) ∧
        (serializeNak nak).drop 1 = (serializeNak threeRanges).drop 1 := by
  obtain ⟨hread, hcut⟩ := (parseNak_codec ⟨0, []⟩).1 threeRanges (by decide)
  refine ⟨hread, hcut _ (List.dropLast_prefix _) (by decide), ?_⟩
  obtain ⟨ok, nak, hparse, hok⟩ := (parseNak_codec ⟨0, []⟩).2 (serializeNak threeRanges ++ [0xFF])
  have htrue : (parseNak (serializeNak threeRanges ++ [0xFF]) ⟨0, []⟩).map Prod.fst = some true := by
    decide
  rw [hparse, Option.map_some, Option.some.injEq] at htrue
  obtain ⟨hlen, hbytes⟩ := hok htrue
  refine ⟨nak, by rw [hparse, ← htrue], ?_⟩
  rw [hbytes, hlen]
  decide

end Cfdp
