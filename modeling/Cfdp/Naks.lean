import Cfdp.Emission
import Cfdp.Recovery

/-!
# What a NAK asks for

For a record with a regular geometry every NAK asks for packets of one chunk that is
not done, in increasing ranges that do not touch (`NakPdu.Proper`). The NAK of
`check_completion` asks for exactly the packets not held (`Exact`), and delivering
them flushes the chunk.
-/

namespace Cfdp

open Crash Prog Machine LittleEndian

/-! ## Proper NAKs -/

/-- The NAK asks for packets of chunk `c`, not done, in increasing ranges that do not touch. -/
structure NakPdu.Proper (nak : NakPdu) (s : JournalState) (c : UInt32) : Prop where
  tid : nak.transactionId = s.transactionId
  nonempty : nak.missingPackets ≠ []
  lt : c.toNat < s.totalChunks.toNat
  open_ : s.isDone c = false
  chunk : ∀ r ∈ nak.missingPackets, r.chunkIndex = c
  separated : nak.missingPackets.Pairwise fun r q => r.lastPacket.toNat + 1 < q.firstPacket.toNat
  bounds : ∀ r ∈ nak.missingPackets,
    r.firstPacket.toNat ≤ r.lastPacket.toNat ∧ r.lastPacket.toNat < s.numPackets c.toNat

theorem isDone_markDone_of {s : JournalState} {c : UInt32} (h : s.isDone c = true) (ci : UInt32) :
    (s.markDone ci).isDone c = true := by
  by_cases hlt : ci.toNat < s.chunkDone.length
  · rw [JournalState.isDone_markDone _ _ _ hlt, h, Bool.or_true]
  · unfold JournalState.isDone
    rw [JournalState.markDone]
    show (s.chunkDone.set ci.toNat true).getD c.toNat false = true
    rw [List.set_eq_of_length_le (by omega)]
    exact h

theorem NakPdu.Proper.unmark {nak : NakPdu} {s : JournalState} {c ci : UInt32}
    (h : nak.Proper (s.markDone ci) c) : nak.Proper s c where
  tid := h.tid
  nonempty := h.nonempty
  lt := h.lt
  open_ := by
    by_contra hd
    have : (s.markDone ci).isDone c = true := isDone_markDone_of (by simpa using hd) ci
    rw [h.open_] at this
    cases this
  chunk := h.chunk
  separated := h.separated
  bounds := h.bounds

namespace CfdpReceiver

variable {rx : CfdpReceiver} {c : UInt32} {pdu : Bytes}

theorem packetNak_eq (h : rx.packetNak = some pdu) :
    pdu = serializeNak rx.progressNak ∧ rx.packetList.computeNakRanges ≠ [] := by
  unfold packetNak at h
  split at h
  · cases h
  · next hne =>
    cases h
    exact ⟨rfl, hne⟩

/-- The NAK for the chunk in progress. -/
theorem proper_progressNak (h : rx.Steady) (ha : rx.transferActive = true) (hg : rx.state.Regular)
    (hne : rx.currentChunkIndex ≠ uint32Max) (hr : rx.packetList.computeNakRanges ≠ []) :
    rx.progressNak.Proper rx.state rx.currentChunkIndex where
  tid := rfl
  nonempty hn := hr (List.map_eq_nil_iff.mp hn)
  lt := (h.busy ha hne).lt
  open_ := (h.busy ha hne).open_
  chunk r hr := by
    obtain ⟨q, -, rfl⟩ := List.mem_map.mp hr
    rfl
  separated := List.pairwise_map.mpr PacketList.nakRanges_separated.1
  bounds r hr := by
    obtain ⟨q, hq, rfl⟩ := List.mem_map.mp hr
    have hb := h.busy ha hne
    rw [← hg.expectedPkts hb.lt, ← hb.slots]
    exact ⟨PacketList.nakRanges_separated.2 q hq, PacketList.nakRanges_lt.2 q hq⟩

/-- The NAK for a whole chunk. -/
theorem proper_wholeNak (hg : rx.state.Regular) (hc : c.toNat < rx.state.totalChunks.toNat)
    (hopen : rx.state.isDone c = false) : (rx.wholeNak c).Proper rx.state c where
  tid := rfl
  nonempty := List.cons_ne_nil _ _
  lt := hc
  open_ := hopen
  chunk r hr := by rw [List.mem_singleton.mp hr]
  separated := List.pairwise_singleton _ _
  bounds r hr := by
    rw [List.mem_singleton.mp hr]
    have h1 := hg.expectedPkts hc
    have h2 := hg.numPackets_pos hc
    have h3 := (rx.state.expectedPkts c).toNat_lt
    refine ⟨Nat.zero_le _, ?_⟩
    rw [UInt32.toNat_sub, show (1 : UInt32).toNat = 1 from rfl]
    omega

/-- The NAK asks for the packets of `c` that are not held. -/
def Exact (rx : CfdpReceiver) (nak : NakPdu) (c : UInt32) : Prop :=
  ∀ pi, pi ∈ nak.packets ↔ pi < rx.state.numPackets c.toNat ∧ ¬ rx.Holds c pi

theorem exact_progressNak (h : rx.Steady) (ha : rx.transferActive = true) (hg : rx.state.Regular)
    (hne : rx.currentChunkIndex ≠ uint32Max) : rx.Exact rx.progressNak rx.currentChunkIndex := by
  intro pi
  have hb := h.busy ha hne
  have hslots : rx.packetList.totalPackets.toNat = rx.state.numPackets rx.currentChunkIndex.toNat := by
    rw [hb.slots, hg.expectedPkts hb.lt]
  have hmem : pi ∈ rx.progressNak.packets ↔
      ∃ r ∈ rx.packetList.computeNakRanges, r.1.toNat ≤ pi ∧ pi ≤ r.2.toNat := by
    simp only [NakPdu.mem_packets, progressNak, List.mem_map]
    constructor
    · rintro ⟨_, ⟨q, hq, rfl⟩, hle⟩
      exact ⟨q, hq, hle⟩
    · rintro ⟨q, hq, hle⟩
      exact ⟨_, ⟨q, hq, rfl⟩, hle⟩
  rw [hmem, h.wf.covered_nakRanges, ← hslots, ← h.wf.length]
  constructor
  · rintro ⟨node, hn, hok⟩
    refine ⟨(List.getElem?_eq_some_iff.mp hn).1, ?_⟩
    rintro ⟨-, node', hn', hok'⟩
    rw [hn] at hn'
    cases hn'
    rw [hok] at hok'
    cases hok'
  · rintro ⟨hlt, hnot⟩
    refine ⟨_, List.getElem?_eq_getElem hlt, ?_⟩
    by_contra hok
    exact hnot ⟨rfl, _, List.getElem?_eq_getElem hlt, by simpa using hok⟩

theorem exact_wholeNak (hg : rx.state.Regular) (hc : c.toNat < rx.state.totalChunks.toNat)
    (hcur : rx.currentChunkIndex = uint32Max) : rx.Exact (rx.wholeNak c) c := by
  intro pi
  have h1 := hg.expectedPkts hc
  have h2 := hg.numPackets_pos hc
  have h3 := (rx.state.expectedPkts c).toNat_lt
  have hnot : ¬ rx.Holds c pi := by
    rintro ⟨he, -⟩
    exact ne_uint32Max hc hg.sane.totalChunks.2 (he.symm.trans hcur)
  have hlast : (rx.state.expectedPkts c - 1).toNat = rx.state.numPackets c.toNat - 1 := by
    rw [UInt32.toNat_sub, show (1 : UInt32).toNat = 1 from rfl]
    omega
  simp only [NakPdu.mem_packets, wholeNak, List.mem_singleton, exists_eq_left, hlast,
    show (0 : UInt32).toNat = 0 from rfl]
  constructor
  · rintro ⟨-, hle⟩
    exact ⟨by omega, hnot⟩
  · rintro ⟨hlt, -⟩
    exact ⟨Nat.zero_le _, by omega⟩

/-- What a completion check asks for. -/
structure Asked (rx : CfdpReceiver) (nak : NakPdu) (c : UInt32) : Prop where
  proper : nak.Proper rx.state c
  exact : rx.Exact nak c
  current : rx.currentChunkIndex = c ∨ rx.currentChunkIndex = uint32Max

/-- **The NAK of a completion check** is proper and exact. -/
theorem completion_asked (h : rx.Steady) (ha : rx.transferActive = true) (hg : rx.state.Regular)
    (hc : rx.completion = .nak pdu) : ∃ nak c, pdu = serializeNak nak ∧ rx.Asked nak c := by
  rcases rx.completionCase with ⟨-, hc'⟩ | ⟨-, hu, hc'⟩ | ⟨-, hu, cr, hs, hc'⟩ | ⟨-, -, -, -, hc'⟩ |
    ⟨-, -, -, hc'⟩
  · rw [hc'] at hc; cases hc
  · have hne := (unfinished_iff.mp hu).1
    rw [hc'] at hc
    cases hp : rx.packetNak with
    | none => rw [hp] at hc; cases hc
    | some pdu' =>
      rw [hp] at hc
      cases hc
      obtain ⟨rfl, hr⟩ := packetNak_eq hp
      exact ⟨_, _, rfl, proper_progressNak h ha hg hne hr, exact_progressNak h ha hg hne, .inl rfl⟩
  · rw [hc'] at hc
    cases hc
    obtain ⟨hlt, hopen⟩ := JournalState.open_of_mem_missing (List.mem_of_find?_eq_some hs)
    rw [UInt32.lt_iff_toNat_lt] at hlt
    have hcur := (h.not_unfinished ha).mp hu
    exact ⟨_, _, rfl, proper_wholeNak hg hlt hopen, exact_wholeNak hg hlt hcur, .inr hcur⟩
  · rw [hc'] at hc; cases hc
  · rw [hc'] at hc; cases hc

/-- The NAK for a chunk that is left. -/
theorem leaveNak_proper {ci : UInt32} (h : rx.Steady) (ha : rx.transferActive = true)
    (hg : rx.state.Regular) (hl : rx.leaveNak ci = some pdu) : ∃ nak, pdu = serializeNak nak ∧
      nak.Proper rx.state rx.currentChunkIndex ∧ rx.currentChunkIndex ≠ ci := by
  unfold leaveNak at hl
  split at hl
  · next hu =>
    simp only [Bool.and_eq_true, bne_iff_ne, ne_eq] at hu
    obtain ⟨rfl, hr⟩ := packetNak_eq hl
    exact ⟨_, rfl, proper_progressNak h ha hg (unfinished_iff.mp hu.2).1 hr, fun he => hu.1 he.symm⟩
  · cases hl

/-! ## Replies -/

/-- The fields in which the handler of `raw` calls `check_completion`, if it does. -/
def checks (rx : CfdpReceiver) (raw : Bytes) : Option CfdpReceiver :=
  match decodePdu raw with
  | some (.eof eof) => if rx.acceptsEof eof then some { rx with state := rx.state.markEof } else none
  | some (.data dpdu) =>
    if rx.acceptsData dpdu && !rx.state.isDone dpdu.chunkIndex && (rx.take dpdu).packetList.isComplete &&
        rx.state.eofReceived then
      some ((rx.take dpdu).flushed dpdu.chunkIndex)
    else none
  | _ => none

variable {env : Env} {o : Oracle} {verified : Bool} {raw : Bytes} {rx₁ : CfdpReceiver}

theorem checks_eof {eof : EofPdu} (hd : decodePdu raw = some (.eof eof))
    (ha : rx.acceptsEof eof = true) :
    rx.checks raw = some { rx with state := rx.state.markEof } := by
  simp only [checks, hd, ha, if_true]

theorem checks_data {d : DataPdu} (hd : decodePdu raw = some (.data d)) (hc : rx.Completes d)
    (he : rx.state.eofReceived = true) : rx.checks raw = some ((rx.take d).flushed d.chunkIndex) := by
  simp only [checks, hd, hc.accepts, hc.open_, hc.complete, he, Bool.not_false, Bool.and_true, if_true]

/-- The two PDUs that lead to a completion check. -/
theorem checks_eq_some (h : rx.checks raw = some rx₁) :
    (∃ eof, decodePdu raw = some (.eof eof) ∧ rx.acceptsEof eof = true ∧
      rx₁ = { rx with state := rx.state.markEof }) ∨
    ∃ d, decodePdu raw = some (.data d) ∧ rx.Completes d ∧ rx.state.eofReceived = true ∧
      rx₁ = (rx.take d).flushed d.chunkIndex := by
  unfold checks at h
  split at h
  · next eof hd =>
    split at h
    · next ha => cases h; exact .inl ⟨eof, hd, ha, rfl⟩
    · cases h
  · next d hd =>
    split at h
    · next hc =>
      simp only [Bool.and_eq_true, Bool.not_eq_true'] at hc
      obtain ⟨⟨⟨h1, h2⟩, h3⟩, h4⟩ := hc
      cases h
      exact .inr ⟨d, hd, ⟨h1, h2, h3⟩, h4, rfl⟩
    · cases h
  · cases h

/-- The answer of the completion check ends the reply. -/
theorem reply_checks (h : rx.checks raw = some rx₁) :
    (rx.reply env o verified raw).1 = (rx₁.complete verified).1 ∧
    (rx₁.complete verified).2 <:+ (rx.reply env o verified raw).2 := by
  rcases checks_eq_some h with ⟨eof, hd, ha, rfl⟩ | ⟨d, hd, hc, he, rfl⟩
  · have hr : rx.reply env o verified raw = complete verified { rx with state := rx.state.markEof } := by
      simp only [reply, hd, replyPdu, replyEof, ha, if_true]
    rw [hr]
    exact ⟨rfl, List.suffix_rfl⟩
  · have he' : (rx.take d).state.eofReceived = true := by rw [take_state]; exact he
    have hf : (rx.take d).replyFlush verified d.chunkIndex = _ := if_pos he'
    rw [hc.reply hd, hf]
    exact ⟨rfl, (List.suffix_cons _ _).trans (List.suffix_append _ _)⟩

/-- A completion check is made with consistent fields. -/
theorem Ok.checks (hok : rx.Ok) (hg : rx.state.Regular) (h : rx.checks raw = some rx₁) :
    rx₁.Steady ∧ rx₁.transferActive = true ∧ rx₁.state.Regular ∧ rx₁.state.eofReceived = true := by
  rcases checks_eq_some h with ⟨eof, -, ha, rfl⟩ | ⟨d, -, hc, he, rfl⟩
  · exact ⟨hok.toSteady.markEof, active_of_acceptsEof ha, hg.markEof, rfl⟩
  · have hacc := acceptsData_iff.mp hc.accepts
    rw [flushed_take_state]
    exact ⟨hok.toSteady.flushed hacc, flushed_take_active hacc _, hg.markDone _, he⟩

theorem mem_complete_nak (h : pdu ∈ (rx.complete verified).2) (hn : isNak pdu = true) :
    rx.completion = .nak pdu := by
  unfold complete at h
  cases hc : rx.completion with
  | silent => rw [hc] at h; cases h
  | nak pdu' =>
    rw [hc] at h
    rw [List.mem_singleton.mp h]
  | verify =>
    rw [hc] at h
    cases verified with
    | false => cases h
    | true =>
      rw [List.mem_singleton.mp h] at hn
      cases hn

/-- A NAK in a reply is sent on leaving a chunk, or by a completion check. -/
theorem reply_nak (h : pdu ∈ (rx.reply env o verified raw).2) (hn : isNak pdu = true) :
    (∃ d, decodePdu raw = some (.data d) ∧ rx.Accepted d ∧ rx.leaveNak d.chunkIndex = some pdu) ∨
      ∃ rx₁, rx.checks raw = some rx₁ ∧ rx₁.completion = .nak pdu := by
  cases hd : decodePdu raw with
  | none => rw [reply, hd] at h; cases h
  | some p =>
    rw [reply, hd] at h
    cases p with
    | metadata m =>
      simp only [replyPdu, replyMetadata] at h
      split at h
      · rw [List.mem_singleton.mp h] at hn; cases hn
      · split at h <;> cases h
    | data d =>
      simp only [replyPdu, replyData] at h
      split at h
      · next hacc =>
        have ha := acceptsData_iff.mp hacc
        split at h
        · split at h
          · rw [List.mem_singleton.mp h] at hn; cases hn
          · cases h
        · next hopen =>
          split at h
          · next hc =>
            rcases List.mem_append.mp h with h | h
            · exact .inl ⟨d, rfl, ha, Option.mem_toList.mp h⟩
            · have hcomp : rx.Completes d := ⟨hacc, by simpa using hopen, hc⟩
              unfold replyFlush at h
              split at h
              · next he =>
                rw [take_state] at he
                rcases List.mem_cons.mp h with rfl | h
                · cases hn
                · exact .inr ⟨_, checks_data hd hcomp he, mem_complete_nak h hn⟩
              · rw [List.mem_singleton.mp h] at hn; cases hn
          · exact .inl ⟨d, rfl, ha, Option.mem_toList.mp h⟩
      · cases h
    | eof e =>
      simp only [replyPdu, replyEof] at h
      split at h
      · next ha => exact .inr ⟨_, checks_eof hd ha, mem_complete_nak h hn⟩
      · cases h
    | resumeQuery q =>
      rw [List.mem_singleton.mp h] at hn
      cases hn

/-- A Data PDU marks no other chunk. -/
theorem replyData_isDone {d : DataPdu} {j : UInt32} (hs : rx.state.Sane) (ha : rx.Accepted d)
    (hj : j ≠ d.chunkIndex) (verified : Bool) :
    (rx.replyData verified d).1.state.isDone j = rx.state.isDone j := by
  have hlt : d.chunkIndex.toNat < rx.state.chunkDone.length := by
    rw [hs.flags]
    exact ha.chunk
  have hflush : ((rx.take d).flushed d.chunkIndex).state.isDone j = rx.state.isDone j := by
    rw [flushed_take_state, JournalState.isDone_markDone _ _ _ hlt, decide_eq_false hj, Bool.false_or]
  unfold replyData
  split
  · split
    · rw [see_state]
    · split
      · simp only [replyFlush]
        split
        · rw [complete_state]
          exact hflush
        · exact hflush
      · rw [take_state]
  · rfl

/-- **Every NAK of a reply is proper**, and its chunk is still not done after the reply. -/
theorem reply_nak_proper (hok : rx.Ok) (hg : rx.state.Regular)
    (h : pdu ∈ (rx.reply env o verified raw).2)
    (hn : isNak pdu = true) : ∃ nak c, pdu = serializeNak nak ∧ nak.Proper rx.state c ∧
      (rx.reply env o verified raw).1.state.isDone c = false := by
  rcases reply_nak h hn with ⟨d, hd, ha, hl⟩ | ⟨rx₁, hc, hnak⟩
  · obtain ⟨nak, rfl, hp, hne⟩ := leaveNak_proper hok.toSteady ha.active hg hl
    refine ⟨nak, _, rfl, hp, ?_⟩
    rw [reply, hd]
    exact (replyData_isDone (hok.sane ha.active) ha hne verified).trans hp.open_
  · obtain ⟨hst, hact, hg₁, -⟩ := hok.checks hg hc
    obtain ⟨nak, c, rfl, hasked⟩ := completion_asked hst hact hg₁ hnak
    refine ⟨nak, c, rfl, ?_, ?_⟩
    · rcases checks_eq_some hc with ⟨eof, -, -, rfl⟩ | ⟨d, -, -, -, rfl⟩
      · exact ⟨hasked.proper.tid, hasked.proper.nonempty, hasked.proper.lt, hasked.proper.open_,
          hasked.proper.chunk, hasked.proper.separated, hasked.proper.bounds⟩
      · have := hasked.proper
        rw [flushed_take_state] at this
        exact this.unmark
    · rw [(reply_checks hc).1, complete_state]
      exact hasked.proper.open_

end CfdpReceiver

/-! ## Deliveries -/

section

variable {env : Env} {w w' : World} {pdus out : List Bytes} {s : JournalState} {c : UInt32}
  {rx : CfdpReceiver}

/-- An invariant of what is to arrive, of the answers and of the fields, along deliveries. -/
theorem World.Takes.inv {I : List Bytes → List Bytes → CfdpReceiver → Prop} (hok : w.rx.Ok)
    (h : I pdus out w.rx)
    (hstep : ∀ raw rest out rx o v, rx.Ok → I (raw :: rest) out rx →
      I rest (out ++ (rx.reply env o v raw).2) (rx.reply env o v raw).1)
    (ht : w.Takes env pdus w') :
    w'.rx.Ok ∧ ∃ out', w'.sent = w.sent ++ out' ∧ I [] (out ++ out') w'.rx := by
  induction pdus generalizing w out with
  | nil =>
    rw [World.takes_nil.mp ht]
    exact ⟨hok, [], (List.append_nil _).symm, by rw [List.append_nil]; exact h⟩
  | cons raw pdus ih =>
    obtain ⟨o, w₁, -, hw₁, ht⟩ := World.takes_cons.mp ht
    obtain ⟨hrx, hsent⟩ := (World.receive_eq_some.mp hw₁).replied
    have hok₁ : w₁.rx.Ok := by rw [hrx]; exact hok.reply _ raw
    have h₁ := hstep raw pdus out w.rx o (verifyFileChecksum env o w₁) hok h
    rw [← hrx] at h₁
    obtain ⟨hok', out', hs', h'⟩ := ih hok₁ h₁ ht
    refine ⟨hok', (w.rx.reply env o (verifyFileChecksum env o w₁) raw).2 ++ out', ?_, ?_⟩
    · rw [hs', hsent, List.append_assoc]
    · rw [← List.append_assoc]
      exact h'

/-- Deliveries that never flush a file of size zero can be made. -/
theorem World.takes_of_inv {I : List Bytes → List Bytes → CfdpReceiver → Prop} (hok : w.rx.Ok)
    (h : I pdus out w.rx)
    (hstep : ∀ raw rest out rx o v, rx.Ok → I (raw :: rest) out rx →
      I rest (out ++ (rx.reply env o v raw).2) (rx.reply env o v raw).1)
    (hsize : ∀ raw rest out rx d, I (raw :: rest) out rx → decodePdu raw = some (.data d) →
      rx.Completes d → rx.state.fileSize ≠ 0) : ∃ w', w.Takes env pdus w' := by
  induction pdus generalizing w out with
  | nil => exact ⟨w, World.takes_nil.mpr rfl⟩
  | cons raw pdus ih =>
    obtain ⟨w₁, hw₁⟩ := @receives_of_dest env noFaults w raw hok smooth_noFaults
      fun d hf _ => hsize raw pdus out w.rx d h hf.1 hf.2
    obtain ⟨hrx, -⟩ := hw₁.replied
    have hok₁ : w₁.rx.Ok := by rw [hrx]; exact hok.reply _ raw
    have h₁ := hstep raw pdus out w.rx noFaults (verifyFileChecksum env noFaults w₁) hok h
    rw [← hrx] at h₁
    obtain ⟨w', hw'⟩ := ih hok₁ h₁
    exact ⟨w', World.takes_cons.mpr ⟨_, w₁, smooth_noFaults, World.receive_eq_some.mpr hw₁, hw'⟩⟩

/-- `raw` is a valid Data PDU for packet `pi` of chunk `c`. -/
def JournalState.Delivers (s : JournalState) (c : UInt32) (pi : Nat) (raw : Bytes) : Prop :=
  ∃ d, decodePdu raw = some (.data d) ∧ d.transactionId = s.transactionId ∧ d.chunkIndex = c ∧
    d.packetIndex.toNat = pi ∧ d.totalPackets = s.expectedPkts c ∧ 0 < d.dataLen.toNat ∧
      Crc.crc8 d.data = d.crc8

/-- What has become of chunk `c` of the record `s` while packets of it arrive. -/
inductive Filled (s : JournalState) (c : UInt32) (rest out : List Bytes) (rx : CfdpReceiver) : Prop
  | filling (ha : rx.transferActive = true) (hs : rx.state = s)
      (hcur : rx.currentChunkIndex = c ∨ rx.currentChunkIndex = uint32Max)
      (hcov : ∀ pi, pi < s.numPackets c.toNat → rx.Holds c pi ∨ ∃ raw ∈ rest, s.Delivers c pi raw)
  | flushed (hd : rx.state.isDone c = true) (hack : AckPdu.raw ⟨s.transactionId, c⟩ ∈ out)

theorem marked_isDone (c : UInt32) : Marked fun s => s.isDone c = true :=
  ⟨fun _ ci h => isDone_markDone_of h ci, fun _ h => h⟩

/-- One valid packet of an open chunk: the chunk is flushed, or the packet is held. -/
theorem reply_delivers {raw : Bytes} {pi : Nat} (hok : rx.Ok) (ha : rx.transferActive = true)
    (hg : rx.state.Regular) (hc : c.toNat < rx.state.totalChunks.toNat)
    (hopen : rx.state.isDone c = false) (hpi : pi < rx.state.numPackets c.toNat)
    (hraw : rx.state.Delivers c pi raw) (o : Oracle) (v : Bool) :
    ((rx.reply env o v raw).1.state.isDone c = true ∧
        AckPdu.raw ⟨rx.state.transactionId, c⟩ ∈ (rx.reply env o v raw).2) ∨
      ((rx.reply env o v raw).1.transferActive = true ∧ (rx.reply env o v raw).1.state = rx.state ∧
        (rx.reply env o v raw).1.currentChunkIndex = c ∧
          ∀ q, (rx.reply env o v raw).1.Holds c q ↔ q = pi ∨ rx.Holds c q) := by
  obtain ⟨d, hd, htid, rfl, hidx, htot, hlen, hcrc⟩ := hraw
  have hacc : rx.Accepted d := ⟨ha, htid, ⟨hlen, (decodePdu_data_length hd).2⟩, hc, htot⟩
  by_cases hcomp : (rx.take d).packetList.isComplete = true
  · have hcs : rx.Completes d := ⟨CfdpReceiver.acceptsData_iff.mpr hacc, hopen, hcomp⟩
    have hlt : d.chunkIndex.toNat < rx.state.chunkDone.length := by
      rw [hg.sane.flags]
      exact hc
    rw [hcs.reply hd]
    refine .inl ⟨?_, List.mem_append_right _ ?_⟩
    · have hm : ((rx.take d).flushed d.chunkIndex).state.isDone d.chunkIndex = true := by
        rw [CfdpReceiver.flushed_take_state, JournalState.isDone_markDone _ _ _ hlt, decide_eq_true rfl,
          Bool.true_or]
      simp only [CfdpReceiver.replyFlush]
      split
      · rw [CfdpReceiver.complete_state]
        exact hm
      · exact hm
    · have hack : (rx.take d).ack d.chunkIndex = AckPdu.raw ⟨rx.state.transactionId, d.chunkIndex⟩ := by
        unfold CfdpReceiver.ack
        rw [CfdpReceiver.take_state]
      rw [← hack]
      simp only [CfdpReceiver.replyFlush]
      split
      · exact List.mem_cons_self
      · exact List.mem_singleton_self _
  · have hreply : (rx.reply env o v raw).1 = rx.take d := by
      have hne : ¬ rx.state.isDone d.chunkIndex = true := by rw [hopen]; exact Bool.false_ne_true
      rw [CfdpReceiver.reply, hd]
      simp only [CfdpReceiver.replyPdu, CfdpReceiver.replyData, CfdpReceiver.acceptsData_iff.mpr hacc, hne,
        hcomp, Bool.false_eq_true, if_true, if_false]
    have hslot : d.packetIndex.toNat < d.totalPackets.toNat := by
      rw [htot, hg.expectedPkts hc, hidx]
      exact hpi
    rw [hreply]
    refine .inr ⟨by simpa using ha, by simp, by simp, fun q => ?_⟩
    rw [CfdpReceiver.holds_take hok.toSteady hacc hslot hcrc, hidx]

/-- Chunk `c` is open, and what is not held of it is among the packets to come. -/
def Coming (s : JournalState) (c : UInt32) (rest : List Bytes) (rx : CfdpReceiver) : Prop :=
  rx.transferActive = true ∧ rx.state = s ∧
    ∀ pi, pi < s.numPackets c.toNat → rx.Holds c pi ∨ ∃ raw ∈ rest, s.Delivers c pi raw

/-- One packet of the chunk. -/
theorem Coming.step {raw : Bytes} {rest out : List Bytes} {pi : Nat} (h : Coming s c (raw :: rest) rx)
    (hok : rx.Ok) (hg : s.Regular) (hc : c.toNat < s.totalChunks.toNat) (hopen : s.isDone c = false)
    (hpi : pi < s.numPackets c.toNat) (hraw : s.Delivers c pi raw) (o : Oracle) (v : Bool) :
    Filled s c rest (out ++ (rx.reply env o v raw).2) (rx.reply env o v raw).1 := by
  obtain ⟨ha, rfl, hcov⟩ := h
  rcases @reply_delivers env c rx raw pi hok ha hg hc hopen hpi hraw o v with
    ⟨hdone, hack⟩ | ⟨ha', hs', hcur', hholds⟩
  · exact .flushed hdone (List.mem_append_right _ hack)
  · refine .filling ha' hs' (.inl hcur') fun q hq => ?_
    rw [hholds]
    rcases hcov q hq with hheld | ⟨raw', hmem, hdel⟩
    · exact .inl (.inr hheld)
    · rcases List.mem_cons.mp hmem with rfl | hmem
      · obtain ⟨d, hd, -, -, hidx, -⟩ := hraw
        obtain ⟨d', hd', -, -, hidx', -⟩ := hdel
        rw [hd] at hd'
        cases hd'
        exact .inl (.inl (hidx'.symm.trans hidx))
      · exact .inr ⟨raw', hmem, hdel⟩

theorem Filled.step {raw : Bytes} {rest out : List Bytes} {pi : Nat}
    (h : Filled s c (raw :: rest) out rx)
    (hok : rx.Ok) (hg : s.Regular) (hc : c.toNat < s.totalChunks.toNat) (hopen : s.isDone c = false)
    (hpi : pi < s.numPackets c.toNat) (hraw : s.Delivers c pi raw) (o : Oracle) (v : Bool) :
    Filled s c rest (out ++ (rx.reply env o v raw).2) (rx.reply env o v raw).1 := by
  cases h with
  | flushed hdone hack =>
    obtain ⟨d, hd, -⟩ := hraw
    refine .flushed ?_ (List.mem_append_left _ hack)
    refine CfdpReceiver.reply_state (marked_isDone c) hdone fun m hm _ => ?_
    rw [hd] at hm
    cases hm
  | filling ha hs _ hcov => exact Coming.step ⟨ha, hs, hcov⟩ hok hg hc hopen hpi hraw o v

/-- **The packets of a chunk flush it**, in any order, with duplicates. -/
theorem Coming.takes (h : Coming s c pdus w.rx) (hok : w.rx.Ok) (hg : s.Regular)
    (hc : c.toNat < s.totalChunks.toNat) (hopen : s.isDone c = false)
    (hpdus : ∀ raw ∈ pdus, ∃ pi, pi < s.numPackets c.toNat ∧ s.Delivers c pi raw) :
    (∃ w', w.Takes env pdus w') ∧ ∀ w', w.Takes env pdus w' →
      AckPdu.raw ⟨s.transactionId, c⟩ ∈ w.sentSince w' ∧ w'.rx.state.isDone c = true := by
  let I : List Bytes → List Bytes → CfdpReceiver → Prop := fun rest out rx =>
    (∀ raw ∈ rest, ∃ pi, pi < s.numPackets c.toNat ∧ s.Delivers c pi raw) ∧
      (Coming s c rest rx ∨ Filled s c rest out rx)
  have h₀ : I pdus [] w.rx := ⟨hpdus, .inl h⟩
  have hstep : ∀ raw rest out rx o v, rx.Ok → I (raw :: rest) out rx →
      I rest (out ++ (rx.reply env o v raw).2) (rx.reply env o v raw).1 := by
    rintro raw rest out rx o v hok ⟨hr, hf⟩
    obtain ⟨pi, hpi, hd⟩ := hr raw List.mem_cons_self
    refine ⟨fun raw' hr' => hr raw' (List.mem_cons_of_mem _ hr'), .inr ?_⟩
    rcases hf with hf | hf
    · exact hf.step hok hg hc hopen hpi hd o v
    · exact hf.step hok hg hc hopen hpi hd o v
  have hsize : ∀ raw rest out rx d, I (raw :: rest) out rx → decodePdu raw = some (.data d) →
      rx.Completes d → rx.state.fileSize ≠ 0 := by
    rintro raw rest out rx d ⟨hr, hf⟩ hd hcs h0
    have hstate (hs : rx.state = s) : False := by
      have := hg.fileSize_pos
      rw [← hs, h0] at this
      exact absurd this (by decide)
    rcases hf with ⟨-, hs, -⟩ | ⟨-, hs, -⟩ | ⟨hdone⟩
    · exact hstate hs
    · exact hstate hs
    · obtain ⟨-, -, d', hd', -, rfl, -⟩ := hr raw List.mem_cons_self
      rw [hd] at hd'
      cases hd'
      rw [hcs.open_] at hdone
      cases hdone
  refine ⟨World.takes_of_inv hok h₀ hstep hsize, fun w' ht => ?_⟩
  obtain ⟨hok', out, hsent, -, hf⟩ := ht.inv hok h₀ hstep
  -- with no packet to come, a chunk still open would be held as a whole
  have hall (ha' : w'.rx.transferActive = true) (hs' : w'.rx.state = s)
      (hcov : ∀ pi, pi < s.numPackets c.toNat → w'.rx.Holds c pi ∨ ∃ raw ∈ [], s.Delivers c pi raw) :
      False := by
    subst hs'
    refine hok'.not_all_held ha' hg hc fun pi hpi => (hcov pi hpi).resolve_right ?_
    rintro ⟨raw, hmem, -⟩
    cases hmem
  rw [World.sentSince_eq hsent]
  rcases hf with ⟨ha', hs', hcov⟩ | ⟨ha', hs', -, hcov⟩ | ⟨hd, hack⟩
  · exact (hall ha' hs' hcov).elim
  · exact (hall ha' hs' hcov).elim
  · exact ⟨hack, hd⟩

/-- **The packets a completion check asks for flush the chunk**, in any order, with duplicates. -/
theorem CfdpReceiver.Asked.takes {nak : NakPdu} (h : w.rx.Asked nak c) (hok : w.rx.Ok)
    (ha : w.rx.transferActive = true) (hg : w.rx.state.Regular)
    (hpdus : ∀ raw ∈ pdus, ∃ pi ∈ nak.packets, w.rx.state.Delivers c pi raw)
    (hall : ∀ pi ∈ nak.packets, ∃ raw ∈ pdus, w.rx.state.Delivers c pi raw) :
    (∃ w', w.Takes env pdus w') ∧ ∀ w', w.Takes env pdus w' →
      AckPdu.raw ⟨w.rx.state.transactionId, c⟩ ∈ w.sentSince w' ∧ w'.rx.state.isDone c = true := by
  refine Coming.takes ⟨ha, rfl, fun pi hpi => ?_⟩ hok hg h.proper.lt h.proper.open_ fun raw hr => ?_
  · by_cases hheld : w.rx.Holds c pi
    · exact .inl hheld
    · exact .inr (hall pi ((h.exact pi).mpr ⟨hpi, hheld⟩))
  · obtain ⟨pi, hpi, hd⟩ := hpdus raw hr
    exact ⟨pi, ((h.exact pi).mp hpi).1, hd⟩

/-! ## Every run -/

/-- A boot sends no NAK. -/
theorem CfdpReceiver.replyBoot_nak {garbage : JournalState}
    {loaded : Option (Bool × JournalState)} {v : Bool}
    {pdu : Bytes} (h : pdu ∈ ((construct garbage).replyBoot v loaded).2) : isNak pdu = false := by
  by_contra hn
  rcases loaded with _ | ⟨ok, state⟩
  · cases h
  · cases ok with
    | false => cases h
    | true =>
      simp only [replyBoot] at h
      split at h
      · next hc =>
        have hnak := mem_complete_nak h (by simpa using hn)
        rcases (activate { construct garbage with state }).completionCase with ⟨-, hc'⟩ | ⟨-, hu, -⟩ |
          ⟨-, -, cr, hs, -⟩ | ⟨-, -, -, -, hc'⟩ | ⟨-, -, -, hc'⟩
        · rw [hc'] at hnak; cases hnak
        · cases hu
        · have hmem : cr ∈ state.computeMissingChunks := List.mem_of_find?_eq_some hs
          rw [hc.1] at hmem
          cases hmem
        · rw [hc'] at hnak; cases hnak
        · rw [hc'] at hnak; cases hnak
      · cases h

/-- A NAK is sent only while a transfer is active. -/
theorem CfdpReceiver.active_of_nak {o : Oracle} {v : Bool} {raw pdu : Bytes}
    (h : pdu ∈ (rx.reply env o v raw).2) (hn : isNak pdu = true) : rx.transferActive = true := by
  rcases reply_nak h hn with ⟨d, -, ha, -⟩ | ⟨rx₁, hc, -⟩
  · exact ha.active
  · rcases checks_eq_some hc with ⟨eof, -, ha, -⟩ | ⟨d, -, hc, -, -⟩
    · exact active_of_acceptsEof ha
    · exact (acceptsData_iff.mp hc.accepts).active

/-- Every NAK of a step is proper, and its chunk is not done after the step. -/
theorem Node.Ok.nak_proper {n n' : Node} {ms : List Moment} {a : Action} (hok : n.Ok)
    (hs : Node.step env n a = some (ms, n')) :
    ∃ out, n'.sent = n.sent ++ out ∧ ∀ pdu ∈ out, isNak pdu = true →
      ∃ w, n = .up w ∧ w.rx.transferActive = true ∧
        (w.rx.state.Regular → ∃ nak c, pdu = serializeNak nak ∧ nak.Proper w.rx.state c ∧
          ∀ w', n' = .up w' → w'.rx.state.isDone c = false) := by
  cases n with
  | down disk log =>
    cases a with
    | recv => cases hs
    | crash => cases hs
    | boot garbage o cut =>
      obtain ⟨v, out, hp, hsent⟩ := Node.sent_boot hs
      refine ⟨out, hsent, fun pdu hpdu hnak => ?_⟩
      rw [CfdpReceiver.replyBoot_nak (hp.subset hpdu)] at hnak
      cases hnak
  | up w =>
    cases a with
    | boot => cases hs
    | crash =>
      cases hs
      exact ⟨[], (List.append_nil _).symm, fun pdu hpdu => by cases hpdu⟩
    | recv raw o cut =>
      obtain ⟨v, out, hp, hsent, hrx⟩ := Node.sent_recv hs
      refine ⟨out, hsent, fun pdu hpdu hnak => ⟨w, rfl,
        CfdpReceiver.active_of_nak (hp.subset hpdu) hnak, fun hg => ?_⟩⟩
      obtain ⟨nak, c, rfl, hproper, hopen⟩ :=
        CfdpReceiver.reply_nak_proper hok.1 hg (hp.subset hpdu) hnak
      exact ⟨nak, c, rfl, hproper, fun w' he => by rw [hrx w' he]; exact hopen⟩

theorem Node.nak_proper {n₀ n n' : Node} {hist ms : List Moment} {a : Action} (hn : n₀.Fresh)
    (h : Node.Run env (fun _ _ => True) n₀ hist n) (hs : Node.step env n a = some (ms, n')) :
    ∃ out, n'.sent = n.sent ++ out ∧ ∀ pdu ∈ out, isNak pdu = true →
      ∃ w, n = .up w ∧ w.rx.transferActive = true ∧
        (w.rx.state.Regular → ∃ nak c, pdu = serializeNak nak ∧ nak.Proper w.rx.state c ∧
          ∀ w', n' = .up w' → w'.rx.state.isDone c = false) :=
  (Node.Run.ok hn h).nak_proper hs

/-- **NAKs are exact and sufficient**, after any PDUs, failures, crashes and reboots, for records
of regular geometry:
* in every step, cut or not, every NAK is proper, and its chunk is not done after the step;
* the NAK of a completion check ends the answer and asks for exactly the packets not held, and
  these packets, delivered next in any order and number, flush the chunk and have it acknowledged. -/
theorem nak_exact {n₀ n : Node} {hist : List Moment} (hn : n₀.Fresh)
    (h : Node.Run env (fun _ _ => True) n₀ hist n) :
    (∀ a ms n', Node.step env n a = some (ms, n') → ∃ out, n'.sent = n.sent ++ out ∧
      ∀ pdu ∈ out, isNak pdu = true → ∃ w, n = .up w ∧ w.rx.transferActive = true ∧
        (w.rx.state.Regular → ∃ nak c, pdu = serializeNak nak ∧ nak.Proper w.rx.state c ∧
          ∀ w', n' = .up w' → w'.rx.state.isDone c = false)) ∧
    ∀ w raw o w' rx₁ pdu, n = .up w → w.rx.state.Regular → w.Receives env o raw w' →
      w.rx.checks raw = some rx₁ → rx₁.completion = .nak pdu →
      w'.rx = rx₁ ∧ (∃ pre, w'.sent = w.sent ++ (pre ++ [pdu])) ∧
        ∃ nak c, pdu = serializeNak nak ∧ nak.Proper rx₁.state c ∧ rx₁.Exact nak c ∧
          ∀ raws, (∀ raw ∈ raws, ∃ pi ∈ nak.packets, rx₁.state.Delivers c pi raw) →
            (∀ pi ∈ nak.packets, ∃ raw ∈ raws, rx₁.state.Delivers c pi raw) →
            (∃ w'', w'.Takes env raws w'') ∧ ∀ w'', w'.Takes env raws w'' →
              AckPdu.raw ⟨rx₁.state.transactionId, c⟩ ∈ w'.sentSince w'' ∧
                w''.rx.state.isDone c = true := by
  have hok := Node.Run.ok hn h
  refine ⟨fun a ms n' hs => Node.nak_proper hn h hs, ?_⟩
  rintro w raw o w' rx₁ pdu rfl hg hw' hc hnak
  obtain ⟨hst, hact, hg₁, -⟩ := hok.1.checks hg hc
  obtain ⟨nak, c, rfl, hasked⟩ := CfdpReceiver.completion_asked hst hact hg₁ hnak
  obtain ⟨hrx, hsent⟩ := hw'.replied
  have hok' : w'.rx.Ok := by rw [hrx]; exact hok.1.reply _ raw
  obtain ⟨h1, h2⟩ := @CfdpReceiver.reply_checks w.rx env o (verifyFileChecksum env o w') raw rx₁ hc
  have hcomp (v : Bool) : rx₁.complete v = (rx₁, [serializeNak nak]) := by
    rw [CfdpReceiver.complete, hnak]
  rw [h1, hcomp] at hrx
  rw [hcomp] at h2
  obtain ⟨pre, hpre⟩ := h2
  subst hrx
  exact ⟨rfl, ⟨pre, by rw [hsent, ← hpre]⟩, nak, c, rfl, hasked.proper, hasked.exact,
    fun raws hraws hall => hasked.takes hok' hact hg₁ hraws hall⟩

/-- The PDU of a completion check that asks for something. -/
def Completion.nak? : Completion → Option Bytes
  | .nak pdu => some pdu
  | _ => none

theorem Completion.eq_nak {c : Completion} {pdu : Bytes} (h : c.nak? = some pdu) : c = .nak pdu := by
  cases c with
  | nak pdu' => cases h; rfl
  | silent => cases h
  | verify => cases h

/-- Nine bytes in one chunk of five packets, the last of them short. -/
def nine : Transfer :=
  { Transfer.five with chunkSize := 9, file := [0x61, 0x62, 0x63, 0x64, 0x65, 0x66, 0x67, 0x68, 0x69] }

theorem delivers_nine {s : JournalState} (ht : s.transactionId = 1) (he : s.expectedPkts 0 = 5) {pi : Nat}
    (hpi : pi < 5) : s.Delivers 0 pi (nine.packetRaw 0 pi) := by
  have hread : ∀ pi < 5, decodePdu (nine.packetRaw 0 pi) = some (.data (nine.dataPdu 0 pi)) ∧
      (nine.dataPdu 0 pi).packetIndex.toNat = pi ∧ (nine.dataPdu 0 pi).totalPackets = 5 ∧
      0 < (nine.dataPdu 0 pi).dataLen.toNat := by
    decide +kernel
  obtain ⟨hd, hindex, htotal, hlen⟩ := hread pi hpi
  exact ⟨nine.dataPdu 0 pi, hd, ht.symm, rfl, hindex, htotal.trans he.symm, hlen, rfl⟩

theorem holds_of_slots {rx : CfdpReceiver} (hcur : rx.currentChunkIndex = 0)
    (hslots : rx.packetList.index.map PacketNode.ok = [false, true, false, true, false]) (pi : Nat) :
    rx.Holds 0 pi ↔ pi = 1 ∨ pi = 3 := by
  have hat : rx.Holds 0 pi ↔ (rx.packetList.index.map PacketNode.ok)[pi]? = some true := by
    unfold CfdpReceiver.Holds
    rw [List.getElem?_map, Option.map_eq_some_iff]
    exact ⟨fun h => h.2, fun h => ⟨hcur, h⟩⟩
  have hsmall : ∀ pi < 5, [false, true, false, true, false][pi]? = some true ↔ pi = 1 ∨ pi = 3 := by
    decide
  rw [hat, hslots]
  by_cases hpi : pi < 5
  · exact hsmall pi hpi
  · rw [List.getElem?_eq_none (by simpa using hpi)]
    simp only [reduceCtorEq, false_iff]
    omega

/-- The second and the fourth packet have arrived: the Eof is answered by a NAK for exactly the three
others, and when these arrive, last one first, the chunk is acknowledged. -/
theorem nak_exact_small : ∃ w w' : World, ∃ nak c, w.Receives sampleEnv noFaults (eofOf 1 0) w' ∧
    nak.Proper w'.rx.state c ∧ w'.rx.Exact nak c ∧ (∀ pi, pi ∈ nak.packets ↔ pi = 0 ∨ pi = 2 ∨ pi = 4) ∧
    ∃ w'', w'.Takes sampleEnv [nine.packetRaw 0 4, nine.packetRaw 0 0, nine.packetRaw 0 2] w'' ∧
      AckPdu.raw ⟨1, 0⟩ ∈ w'.sentSince w'' ∧ w''.rx.state.isDone 0 = true := by
  have hrun : (sampleRun [powerOn, deliver (nine.metadataRaw sampleEnv.crc32),
      deliver (nine.packetRaw 0 1), deliver (nine.packetRaw 0 3)]).any
      (fun r => r.2.world?.any fun w => (w.receive sampleEnv (eofOf 1 0, noFaults)).isSome &&
        (w.rx.checks (eofOf 1 0)).any fun rx => rx.completion.nak?.isSome && w.rx.transferActive &&
          decide (w.rx.state.totalChunks.toNat =
            (w.rx.state.fileSize.toNat + w.rx.state.chunkSize.toNat - 1) /
            w.rx.state.chunkSize.toNat) &&
          decide (w.rx.state.chunkSize.toNat + w.rx.state.packetSize.toNat - 1 < 2 ^ 32) &&
          decide (rx.state.totalChunks.toNat = 1 ∧ rx.state.transactionId = 1 ∧
            rx.state.expectedPkts 0 = 5 ∧ rx.state.numPackets 0 = 5 ∧ rx.currentChunkIndex = 0 ∧
            rx.packetList.index.map PacketNode.ok = [false, true, false, true, false])) = true := by
    decide +kernel
  simp only [Option.any_eq_true, Node.world?_eq_some, Bool.and_eq_true, decide_eq_true_eq, Prod.exists,
    Option.isSome_iff_exists] at hrun
  obtain ⟨hist, n, hr, w, rfl, ⟨w', hw'⟩, rx₁, hc, ⟨⟨⟨⟨pdu, hpdu⟩, ha⟩, htot⟩, hsz⟩, hone, htid,
    hpkts, hnum, hcur, hslots⟩ := hrun
  have hok : Node.Run sampleEnv (fun _ _ => True) unusedNode hist (.up w) :=
    Machine.exec_run hr fun _ _ _ _ _ => trivial
  have hg : w.rx.state.Regular := ⟨(Node.Run.ok unusedNode_fresh hok).1.sane ha, htot, hsz⟩
  have hw := World.receive_eq_some.mp hw'
  obtain ⟨rfl, -, nak, c, -, hproper, hexact, hdeliver⟩ :=
    (nak_exact unusedNode_fresh hok).2 w _ noFaults w' rx₁ pdu rfl hg hw hc (Completion.eq_nak hpdu)
  obtain rfl : c = 0 := by
    have := hproper.lt
    apply UInt32.toNat_inj.mp
    rw [show (0 : UInt32).toNat = 0 from rfl]
    omega
  have hmem (pi : Nat) : pi ∈ nak.packets ↔ pi = 0 ∨ pi = 2 ∨ pi = 4 := by
    rw [hexact pi, holds_of_slots hcur hslots pi, show (0 : UInt32).toNat = 0 from rfl, hnum]
    omega
  have hpacket {pi : Nat} (hpi : pi < 5) := delivers_nine htid hpkts hpi
  obtain ⟨⟨w'', htakes⟩, hdone⟩ := hdeliver [nine.packetRaw 0 4, nine.packetRaw 0 0, nine.packetRaw 0 2]
    (by
      intro raw hraw
      simp only [List.mem_cons, List.not_mem_nil, or_false] at hraw
      rcases hraw with rfl | rfl | rfl
      · exact ⟨4, (hmem 4).mpr (by omega), hpacket (by omega)⟩
      · exact ⟨0, (hmem 0).mpr (by omega), hpacket (by omega)⟩
      · exact ⟨2, (hmem 2).mpr (by omega), hpacket (by omega)⟩)
    (by
      intro pi hpi
      rcases (hmem pi).mp hpi with rfl | rfl | rfl
      · exact ⟨_, by simp, hpacket (by omega)⟩
      · exact ⟨_, by simp, hpacket (by omega)⟩
      · exact ⟨_, by simp, hpacket (by omega)⟩)
  obtain ⟨hack, hflushed⟩ := hdone w'' htakes
  rw [htid] at hack
  exact ⟨w, w', nak, 0, hw, hproper, hexact, hmem, w'', htakes, hack, hflushed⟩

end

end Cfdp
