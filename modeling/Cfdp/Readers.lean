import Cfdp.PduCodec
import Cfdp.Retransmission

/-!
# Two readers of one format

The PDUs of the receiver are read by `send` and `_on_nak` of the sender, and by `parse_nak` and
`parse_ack` of `PduCodec.h`. They agree on every byte string, of whatever origin
(`readers_agree`): what one accepts the other accepts with the same meaning, and where
`parse_nak` rejects a NAK the sender raises.
-/

namespace Cfdp

open LittleEndian

variable {x : Transfer} {pdu : Bytes}

/-- The ranges of `rangesOf`, each from its place. -/
theorem rangesOf_eq (n : Nat) (bs : Bytes) :
    rangesOf n bs = (List.range n).map fun i => PacketNakRange.ofBytes (bs.drop (12 * i)) := by
  induction n generalizing bs with
  | zero => rfl
  | succ n ih =>
    unfold rangesOf
    rw [ih, List.range_succ_eq_map, List.map_cons, List.map_map, Nat.mul_zero, List.drop_zero]
    refine congrArg _ (List.map_congr_left fun i _ => ?_)
    rw [Function.comp_apply, List.drop_drop, Nat.succ_eq_add_one, show 12 + 12 * i = 12 * (i + 1) by omega]

namespace Transfer

/-- A range that lies inside the payload. -/
theorem onNakRange_eq (hps : x.packetSize ≠ 0) {i : Nat} (h : 9 + 12 * (i + 1) ≤ pdu.length) :
    x.onNakRange (pdu.drop 1) i =
      ((⟨0, [PacketNakRange.ofBytes ((pdu.drop 9).drop (12 * i))]⟩ : NakPdu).named.map
        fun q => x.packet q.1 q.2) := by
  have hlen : ¬ ((pdu.drop 1).length < 8 + i * 12 + 12 ∨ x.packetSize = 0) := by
    rw [List.length_drop]
    omega
  unfold onNakRange
  rw [if_neg hlen, NakPdu.named, List.flatMap_singleton, List.map_map]
  simp only [PacketNakRange.ofBytes, List.drop_drop]
  have h0 : 1 + (8 + i * 12) = 9 + 12 * i := by omega
  have h4 : 1 + (8 + i * 12 + 4) = 9 + 12 * i + 4 := by omega
  have h8 : 1 + (8 + i * 12 + 8) = 9 + 12 * i + 8 := by omega
  rw [h0, h4, h8]
  rfl

theorem onNak_holds (hps : x.packetSize ≠ 0) (h : HoldsNak pdu) :
    x.onNak (pdu.drop 1) =
      (⟨rd32 (pdu.drop 1), rangesOf (nakCount pdu) (pdu.drop 9)⟩ : NakPdu).named.map
        fun q => x.packet q.1 q.2 := by
  unfold HoldsNak at h
  have hlen : ¬ (pdu.drop 1).length < 8 := by
    rw [List.length_drop]
    omega
  have hcount : rd32 ((pdu.drop 1).drop 4) = rd32 (pdu.drop 5) := by rw [List.drop_drop]
  rw [onNak, if_neg hlen, hcount, ← nakCount, NakPdu.named, rangesOf_eq, List.flatMap_map, List.map_flatMap]
  refine List.flatMap_congr fun i hi => ?_
  have hi := List.mem_range.mp hi
  rw [onNakRange_eq hps (by omega), NakPdu.named, List.flatMap_singleton]

/-- A NAK that does not hold its ranges makes `_on_nak` raise. -/
theorem none_mem_onNak (h : ¬ HoldsNak pdu) : none ∈ x.onNak (pdu.drop 1) := by
  unfold HoldsNak at h
  unfold onNak
  have hcount : rd32 ((pdu.drop 1).drop 4) = rd32 (pdu.drop 5) := by rw [List.drop_drop]
  split
  · exact List.mem_singleton_self _
  · next h8 =>
    rw [List.length_drop] at h8
    rw [hcount, ← nakCount]
    refine List.mem_flatMap.mpr ⟨nakCount pdu - 1, List.mem_range.mpr (by omega), ?_⟩
    unfold onNakRange
    rw [if_pos]
    · exact List.mem_singleton_self _
    · rw [List.length_drop]
      omega

theorem sendAll_raised {pdus : List (Option Bytes)} {next : Phase} (h : none ∈ pdus) :
    (sendAll next pdus).2 = .raised := by
  induction pdus with
  | nil => cases h
  | cons p pdus ih =>
    cases p with
    | none => rfl
    | some pdu => exact ih ((List.mem_cons.mp h).resolve_left nofun)

end Transfer

/-- **The two readers agree on every byte string.** If `parse_nak` accepts it, `_on_nak` transmits
the packets of the ranges it returns, in order; if not, `_on_nak` raises. And `send` takes it for
the ACK of `ci` exactly if its type says so and `parse_ack` reads `ci`. -/
theorem readers_agree (x : Transfer) (hps : x.packetSize ≠ 0) (pdu : Bytes) :
    (∀ out, ∃ ok nak, parseNak pdu out = some (ok, nak) ∧
      (ok = true → x.onNak (pdu.drop 1) = nak.named.map fun q => x.packet q.1 q.2) ∧
      (ok = false → nak = out ∧ ∀ next more,
        (sendAll next (x.onNak (pdu.drop 1) ++ more)).2 = .raised)) ∧
    ∀ out, ∃ ok ack, parseAck pdu out = some (ok, ack) ∧ ∀ ci, acksChunk ci pdu = true ↔
      pdu.head? = some PduType.ack.code ∧ ok = true ∧ ack.chunkIndex.toNat = ci := by
  constructor
  · intro out
    by_cases h : HoldsNak pdu
    · exact ⟨_, _, parseNak_eq h out, fun _ => Transfer.onNak_holds hps h, nofun⟩
    · refine ⟨_, _, parseNak_short h out, nofun, fun _ => ⟨rfl, fun next more => ?_⟩⟩
      exact Transfer.sendAll_raised (List.mem_append_left _ (Transfer.none_mem_onNak h))
  · intro out
    rw [parseAck_eq]
    by_cases h : 9 ≤ pdu.length
    · refine ⟨_, _, if_pos h, fun ci => ?_⟩
      simp [acksChunk, h]
    · refine ⟨_, _, if_neg h, fun ci => ?_⟩
      simp [acksChunk, h]

/-- A NAK of one range, and its first ten bytes. -/
theorem readers_agree_small :
    (Transfer.small [0x61]).onNak ((serializeNak ⟨1, [⟨0, 0, 0⟩]⟩).drop 1) =
      [(Transfer.small [0x61]).packet 0 0] ∧
    (sendAll (.chunk 0) ((Transfer.small [0x61]).onNak
      (((serializeNak ⟨1, [⟨0, 0, 0⟩]⟩).take 10).drop 1))).2 = .raised := by
  have hagree := readers_agree (Transfer.small [0x61]) Nat.one_ne_zero
  constructor
  · obtain ⟨ok, nak, hparse, hsame, -⟩ := (hagree (serializeNak ⟨1, [⟨0, 0, 0⟩]⟩)).1 ⟨0, []⟩
    have he : parseNak (serializeNak ⟨1, [⟨0, 0, 0⟩]⟩) ⟨0, []⟩ = some (true, ⟨1, [⟨0, 0, 0⟩]⟩) := by
      decide
    cases he.symm.trans hparse
    exact hsame rfl
  · obtain ⟨ok, nak, hparse, -, hraise⟩ := (hagree ((serializeNak ⟨1, [⟨0, 0, 0⟩]⟩).take 10)).1 ⟨0, []⟩
    have he : parseNak ((serializeNak ⟨1, [⟨0, 0, 0⟩]⟩).take 10) ⟨0, []⟩ = some (false, ⟨0, []⟩) := by
      decide
    cases he.symm.trans hparse
    have hr := (hraise rfl).2 (.chunk 0) []
    rwa [List.append_nil] at hr

end Cfdp
