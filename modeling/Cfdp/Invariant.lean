import Cfdp.Node
import Cfdp.Reply

/-!
# Invariants of every run

What holds between PDUs whatever bytes arrive, whatever calls fail and wherever
crashes strike: the receiver's fields are consistent (`CfdpReceiver.Ok`) and the
journal, if there is one, decodes to a sane record (`JournalAll`).

`JournalAll P` is kept for every predicate `P` of records that the chunk and Eof
marks preserve; `Sane` is one, the origin of a record another.
-/

namespace Cfdp

open Crash Prog Machine

/-! ## Records -/

/-- The bounds `handle_metadata` checks, and one flag per chunk. -/
structure JournalState.Sane (s : JournalState) : Prop where
  packetSize : 0 < s.packetSize.toNat ∧ s.packetSize.toNat ≤ defaultPacketSize
  chunkSize : 0 < s.chunkSize.toNat
  totalChunks : 0 < s.totalChunks.toNat ∧ s.totalChunks.toNat ≤ 2 ^ 20
  flags : s.chunkDone.length = s.totalChunks.toNat

section

variable {s : JournalState} {metadata : MetadataPdu} {env : Env} {o : Oracle}

theorem JournalState.Sane.markDone (h : s.Sane) (ci : UInt32) : (s.markDone ci).Sane where
  packetSize := h.packetSize
  chunkSize := h.chunkSize
  totalChunks := h.totalChunks
  flags := by rw [JournalState.length_markDone]; exact h.flags

theorem JournalState.Sane.markEof (h : s.Sane) : s.markEof.Sane where
  packetSize := h.packetSize
  chunkSize := h.chunkSize
  totalChunks := h.totalChunks
  flags := h.flags

theorem JournalState.Sane.flags_lt (h : s.Sane) : s.chunkDone.length < 2 ^ 32 := by
  have := h.flags; have := h.totalChunks; omega

theorem toNat_pos {x : UInt32} (h : x ≠ 0) : 0 < x.toNat := by
  rcases Nat.eq_zero_or_pos x.toNat with h0 | h0
  · exact absurd (UInt32.toNat_inj.mp h0) h
  · exact h0

theorem MetadataPdu.sane_iff : metadata.sane = true ↔
    (0 < metadata.totalChunks.toNat ∧ metadata.totalChunks.toNat ≤ 2 ^ 20) ∧
      (0 < metadata.packetSize.toNat ∧ metadata.packetSize.toNat ≤ defaultPacketSize) ∧
      0 < metadata.chunkSize.toNat ∧ safeName (cstr metadata.filename.toList) = true := by
  have hz (x : UInt32) : x = 0 ↔ x.toNat = 0 := by rw [← UInt32.toNat_inj]; rfl
  simp only [MetadataPdu.sane, Bool.and_eq_true, Bool.not_eq_true', Bool.or_eq_false_iff,
    beq_eq_false_iff_ne, decide_eq_false_iff_not, ne_eq, hz]
  constructor
  · rintro ⟨⟨h1, h2⟩, ⟨h3, h4⟩, h5, h6⟩
    exact ⟨by omega, by omega, by omega, h6⟩
  · rintro ⟨h1, h2, h3, h4⟩
    exact ⟨by omega, by omega, by omega, h4⟩

theorem JournalState.start_sane (h : metadata.sane = true) (old : JournalState) :
    (old.start env o metadata).Sane := by
  obtain ⟨h1, h2, h3, -⟩ := MetadataPdu.sane_iff.mp h
  exact ⟨h2, h3, h1, by simp [JournalState.start]⟩

theorem destString_ne_zero (env : Env) (o : Oracle) (m : MetadataPdu) :
    ∀ b ∈ destString env o m, b ≠ 0 := by
  intro b hb
  unfold destString at hb
  rcases List.mem_append.mp (List.mem_of_mem_take hb) with hb | hb
  · exact ne_zero_of_mem_cstr hb
  · rcases List.mem_cons.mp hb with rfl | hb
    · decide
    · exact ne_zero_of_mem_cstr hb

/-- The path `handle_metadata` stores is the string it formats. -/
theorem JournalState.recvFilePath_start (s : JournalState) (m : MetadataPdu) :
    (s.start env o m).recvFilePath = destString env o m := by
  have hlen : (destString env o m).length ≤ 511 := by
    rw [destString, List.length_take]; omega
  have harr : (snprintfInto (destString env o m) s.destPath).toList =
      destString env o m ++ 0 :: ((s.destPath.toList.drop ((destString env o m).length + 1) ++
        List.replicate 512 0).take (511 - (destString env o m).length)) := by
    show ((destString env o m ++ 0 :: _) ++ List.replicate 512 0).take 512 = _
    rw [List.append_assoc, List.take_append, List.take_of_length_le (by omega), List.cons_append,
      show 512 - (destString env o m).length = 511 - (destString env o m).length + 1 by omega,
      List.take_succ_cons]
  show cstr (snprintfInto (destString env o m) s.destPath).toList = _
  rw [harr, cstr_append_zero, cstr_eq_self (destString_ne_zero env o m)]

theorem CfdpReceiver.sane_of_accepts {rx : CfdpReceiver} (h : rx.accepts metadata = true) :
    metadata.sane = true := by
  simp only [CfdpReceiver.accepts, Bool.and_eq_true] at h
  exact h.2.2

end

/-! ## The journal on disk -/

/-- The journal, if there is one, is the encoding of a record satisfying `P`. -/
def JournalAll (P : JournalState → Prop) (disk : Disk) : Prop :=
  ∀ c, disk.stateBin = some c → ∃ s, c = s.encode ∧ s.chunkDone.length < 2 ^ 32 ∧ P s

/-- The marks preserve `P`. -/
structure Marked (P : JournalState → Prop) : Prop where
  markDone : ∀ s ci, P s → P (s.markDone ci)
  markEof : ∀ s, P s → P s.markEof

theorem marked_sane : Marked JournalState.Sane := ⟨fun _ ci h => h.markDone ci, fun _ h => h.markEof⟩

section

variable {P : JournalState → Prop} {w w' : World} {o : Oracle} {env : Env}

theorem JournalAll.decode {disk : Disk} (h : JournalAll P disk) {s : JournalState}
    (hs : JournalState.decode disk.stateBin = some s) : P s ∧ s.chunkDone.length < 2 ^ 32 := by
  cases hb : disk.stateBin with
  | none => rw [hb] at hs; cases hs
  | some c =>
    obtain ⟨s', rfl, hlen, hp⟩ := h c hb
    rw [hb, JournalState.decode_encode s' hlen] at hs
    cases hs
    exact ⟨hp, hlen⟩

theorem JournalAll.mono {P' : JournalState → Prop} {disk : Disk} (h : JournalAll P disk)
    (hP : ∀ s, P s → P' s) : JournalAll P' disk := by
  intro c hc
  obtain ⟨s, hs, hlen, hp⟩ := h c hc
  exact ⟨s, hs, hlen, hP s hp⟩

theorem journalAll_some {disk : Disk} {s : JournalState} (h : disk.stateBin = some s.encode)
    (hp : P s) (hlen : s.chunkDone.length < 2 ^ 32) : JournalAll P disk := by
  intro c hc
  rw [h] at hc; cases hc
  exact ⟨s, rfl, hlen, hp⟩

theorem journalAll_dropJournal : JournalAll P w.dropJournal.disk := by
  intro c hc; cases hc

theorem JournalAll.updated {u : JournalUpdate} {f : JournalState → Option JournalState}
    (h : JournalAll P w.disk)
    (hf : ∀ s s', P s → s.chunkDone.length < 2 ^ 32 → f s = some s' →
      P s' ∧ s'.chunkDone.length < 2 ^ 32)
    (hu : Updated o w u f w') : JournalAll P w'.disk := by
  rcases hu with ⟨t, rfl, -⟩ | ⟨s, s', hd, hs, rfl⟩
  · exact h
  · obtain ⟨hp, hlen⟩ := h.decode hd
    obtain ⟨hp', hlen'⟩ := hf s s' hp hlen hs
    exact journalAll_some rfl hp' hlen'

theorem JournalAll.removed (h : JournalAll P w.disk) (hr : Removed o w w') : JournalAll P w'.disk := by
  rcases hr with ⟨rfl, -⟩ | ⟨rfl, -⟩
  · exact h
  · exact journalAll_dropJournal

theorem Marked.markIn (hP : Marked P) {ci : UInt32} {s s' : JournalState} (hp : P s)
    (hlen : s.chunkDone.length < 2 ^ 32) (hs : markIn ci s = some s') :
    P s' ∧ s'.chunkDone.length < 2 ^ 32 := by
  unfold Cfdp.markIn at hs
  split at hs
  · cases hs
  · cases hs; exact ⟨hP.markDone s ci hp, by rwa [JournalState.length_markDone]⟩

/-- A program that keeps `JournalAll P` at every moment. -/
abbrev KeepsJournal (P : JournalState → Prop) (p : M Unit) (w : World) : Prop :=
  wp p (fun x => JournalAll P x.disk) (fun _ x => JournalAll P x.disk)
    (fun _ x => JournalAll P x.disk) w

theorem keepsJournal_checkCompletion (h : JournalAll P w.disk) :
    KeepsJournal P (checkCompletion env o) w :=
  wp_checkCompletion (fun _ => h) (fun _ _ => ⟨h, h⟩)
    (fun _ _ => ⟨fun _ => journalAll_dropJournal, fun _ hr => JournalAll.removed (w := w.setRx _) h hr⟩)
    (fun _ _ => ⟨h, fun _ => journalAll_dropJournal, fun _ hr =>
      JournalAll.removed (w := w.finalAck.setRx _) h hr⟩)

theorem keepsJournal_flushChunk (hP : Marked P) (h : JournalAll P w.disk) (ci : UInt32) :
    KeepsJournal P (flushChunk env o ci) w := by
  refine wp_flushChunk (fun _ _ => h) (fun _ _ _ _ => h) fun base _ => ?_
  have h1 : JournalAll P (w.wroteChunk ci base).disk := h
  refine ⟨fun _ => h, fun s s' hd hs => ?_, fun w' hu => ?_⟩
  · obtain ⟨hp, hlen⟩ := h.decode hd
    obtain ⟨hp', hlen'⟩ := hP.markIn hp hlen hs
    exact journalAll_some rfl hp' hlen'
  · have h2 := h1.updated (fun s s' hp hlen hs => hP.markIn hp hlen hs) hu
    exact ⟨h2, fun _ => keepsJournal_checkCompletion h2, fun _ => h2⟩

theorem keepsJournal_onPduReceived (env : Env) (o : Oracle) (raw : Bytes) (hP : Marked P)
    (h : JournalAll P w.disk)
    (hstart : ∀ metadata, decodePdu raw = some (.metadata metadata) → w.rx.accepts metadata = true →
      P (w.rx.state.start env o metadata)) :
    KeepsJournal P (onPduReceived env o raw) w := by
  unfold onPduReceived
  cases hd : decodePdu raw with
  | none => exact (wp_pure ()).mpr h
  | some pdu =>
    cases pdu with
    | metadata metadata =>
      refine wp_handleMetadata (fun _ _ => h) (fun _ => ⟨h, h⟩) fun ha => ?_
      have hlen : (w.rx.state.start env o metadata).chunkDone.length < 2 ^ 32 := by
        have := metadata.totalChunks.toNat_lt
        simpa [JournalState.start] using this
      have hp := hstart metadata hd ha
      refine ⟨fun _ => journalAll_dropJournal, ?_⟩
      rintro w₁ hr w₂ rfl
      obtain ⟨hrx, -⟩ := hr.alike
      have h1 := h.removed hr
      rw [World.setRx_rx, hrx]
      refine ⟨fun _ => h1, journalAll_some rfl hp hlen, fun w₃ hc => ?_⟩
      rcases hc with ⟨t, rfl, -⟩ | rfl
      · exact h1
      · exact journalAll_some rfl hp hlen
    | data dpdu =>
      refine wp_handleData (fun _ => h) ?_ fun _ _ => ⟨fun _ _ => h, ?_⟩
      · rintro _ _ w₁ rfl
        exact ⟨fun _ => ⟨h, h⟩, fun _ => h⟩
      · rintro w₁ rfl
        have h1 : JournalAll P ((w.sendOption (w.rx.leaveNak dpdu.chunkIndex)).setRx
            (CfdpReceiver.take dpdu)).disk := by
          rw [World.setRx_disk, World.sendOption_disk]; exact h
        exact ⟨fun _ => keepsJournal_flushChunk hP h1 _, fun _ => h1⟩
    | eof eof =>
      refine wp_handleEof (fun _ => h) (fun _ _ => keepsJournal_checkCompletion h) fun _ _ => ?_
      refine ⟨fun _ => h, fun s hd' => ?_, fun w' hu => ?_⟩
      · obtain ⟨hp, hlen⟩ := h.decode hd'
        exact journalAll_some rfl (hP.markEof s hp) hlen
      · have h1 : JournalAll P w'.disk := h.updated (f := fun s => some s.markEof)
          (fun s s' hp hlen hs => by cases hs; exact ⟨hP.markEof s hp, hlen⟩) hu
        exact keepsJournal_checkCompletion h1
    | resumeQuery query => exact wp_handleResumeQuery.mpr ⟨h, h⟩

theorem keepsJournal_onBoot (env : Env) (o : Oracle) (h : JournalAll P w.disk) :
    KeepsJournal P (onBoot env o) w := by
  refine wp_onBoot (fun _ => h) ?_ ?_
  · rintro - - w₁ rfl
    exact ⟨journalAll_dropJournal, fun w' hr => JournalAll.removed (w := w.setRx _) h hr⟩
  · rintro - - w₁ rfl
    exact ⟨fun _ => keepsJournal_checkCompletion h, fun _ => h⟩

end

/-! ## Completion, case by case -/

/-- The branches of `check_completion`. -/
inductive CompletionCase (rx : CfdpReceiver) : Prop where
  | noEof (he : rx.state.eofReceived = false) (hc : rx.completion = .silent)
  | unfinished (he : rx.state.eofReceived = true) (hu : rx.unfinished = true)
      (hc : rx.completion = match rx.packetNak with | some pdu => .nak pdu | none => .silent)
  | missing (he : rx.state.eofReceived = true) (hu : rx.unfinished = false) (cr : ChunkNakRange)
      (hm : rx.sentMissing = some cr) (hc : rx.completion = .nak (rx.chunkNak cr.firstChunk))
  | unsent (he : rx.state.eofReceived = true) (hu : rx.unfinished = false)
      (hm : rx.sentMissing = none) (hne : rx.state.computeMissingChunks ≠ [])
      (hc : rx.completion = .silent)
  | verify (he : rx.state.eofReceived = true) (hu : rx.unfinished = false)
      (hm : rx.state.computeMissingChunks = []) (hc : rx.completion = .verify)

namespace CfdpReceiver

variable {rx : CfdpReceiver}

theorem completionCase (rx : CfdpReceiver) : CompletionCase rx := by
  have h : rx.completion = rx.completion := rfl
  conv at h => rhs; unfold completion
  cases he : rx.state.eofReceived with
  | false =>
    rw [he] at h
    exact .noEof he h
  | true =>
    rw [he, Bool.not_true, if_neg Bool.false_ne_true] at h
    cases hu : rx.unfinished with
    | true =>
      rw [hu, if_pos rfl] at h
      exact .unfinished he hu h
    | false =>
      rw [hu, if_neg Bool.false_ne_true] at h
      cases hm : rx.sentMissing with
      | some cr =>
        simp only [hm] at h
        exact .missing he hu cr hm h
      | none =>
        simp only [hm] at h
        by_cases hne : rx.state.computeMissingChunks = []
        · rw [if_neg (not_not_intro hne)] at h
          exact .verify he hu hne h
        · rw [if_pos hne] at h
          exact .unsent he hu hm hne h

/-- A completion check that verifies found every chunk done and none in progress. -/
theorem completion_verify (h : rx.completion = .verify) :
    rx.state.eofReceived = true ∧ rx.unfinished = false ∧ rx.state.computeMissingChunks = [] := by
  rcases rx.completionCase with ⟨-, hc⟩ | ⟨-, -, hc⟩ | ⟨-, -, cr, -, hc⟩ | ⟨-, -, -, -, hc⟩ | ⟨he, hu, hm, -⟩
  · rw [hc] at h; cases h
  · rw [hc] at h; split at h <;> cases h
  · rw [hc] at h; cases h
  · rw [hc] at h; cases h
  · exact ⟨he, hu, hm⟩

end CfdpReceiver

/-! ## Acknowledgements and other answers -/

def IsAck (pdu : Bytes) : Prop := pdu.head? = some PduType.ack.code

theorem isAck_raw (ack : AckPdu) : IsAck ack.raw := rfl

theorem not_isAck_nak (nak : NakPdu) : ¬ IsAck (serializeNak nak) := by
  simp [IsAck, serializeNak, PduType.code]

theorem not_isAck_info (info : ResumeInfoPdu) : ¬ IsAck info.raw := by
  simp [IsAck, ResumeInfoPdu.raw, PduType.code]

namespace CfdpReceiver

variable {rx : CfdpReceiver}

theorem packetNak_not_ack {pdu : Bytes} (h : rx.packetNak = some pdu) : ¬ IsAck pdu := by
  unfold packetNak at h
  split at h
  · cases h
  · cases h; exact not_isAck_nak _

theorem leaveNak_not_ack {ci : UInt32} {pdu : Bytes} (h : rx.leaveNak ci = some pdu) :
    ¬ IsAck pdu := by
  unfold leaveNak at h
  split at h
  · exact packetNak_not_ack h
  · cases h

/-- The NAK for the chunk left keeps what every PDU that is no ACK keeps. -/
theorem sendOption_leaveNak {P : World → Prop} {w : World} {ci : UInt32} (h : P w)
    (hs : ∀ pdu, ¬ IsAck pdu → P (w.send pdu)) : P (w.sendOption (w.rx.leaveNak ci)) := by
  cases hl : w.rx.leaveNak ci with
  | none => exact h
  | some pdu => exact hs pdu (leaveNak_not_ack hl)

theorem completion_not_ack {pdu : Bytes} (h : rx.completion = .nak pdu) : ¬ IsAck pdu := by
  rcases rx.completionCase with ⟨-, hc⟩ | ⟨-, -, hc⟩ | ⟨-, -, cr, -, hc⟩ | ⟨-, -, -, -, hc⟩ | ⟨-, -, -, hc⟩
  · rw [hc] at h; cases h
  · rw [hc] at h
    split at h
    · next hp => cases h; exact packetNak_not_ack hp
    · cases h
  · rw [hc] at h; cases h; exact not_isAck_nak _
  · rw [hc] at h; cases h
  · rw [hc] at h; cases h

/-! ## Fields -/

/-- The chunk in progress: seen, not done, its slots those of the record's geometry, not
complete. -/
structure InProgress (rx : CfdpReceiver) : Prop where
  lt : rx.currentChunkIndex.toNat < rx.state.totalChunks.toNat
  seen : rx.currentChunkIndex.toNat ≤ rx.maxChunkSeen.toNat
  open_ : rx.state.isDone rx.currentChunkIndex = false
  slots : rx.packetList.totalPackets = rx.state.expectedPkts rx.currentChunkIndex
  incomplete : rx.packetList.isComplete = false

/-- The fields agree with each other. -/
structure Steady (rx : CfdpReceiver) : Prop where
  wf : rx.packetList.Wf
  idle : rx.currentChunkIndex = uint32Max → rx.packetList = {}
  sane : rx.transferActive = true → rx.state.Sane
  seen : rx.transferActive = true → rx.maxChunkSeen.toNat < rx.state.totalChunks.toNat
  busy : rx.transferActive = true → rx.currentChunkIndex ≠ uint32Max → rx.InProgress

/-- The fields between PDUs: an active transfer that saw its Eof still misses a chunk. -/
structure Ok (rx : CfdpReceiver) : Prop extends Steady rx where
  missing : rx.transferActive = true → rx.state.eofReceived = true →
    rx.state.computeMissingChunks ≠ []

theorem ne_uint32Max {ci total : UInt32} (h : ci.toNat < total.toNat) (ht : total.toNat ≤ 2 ^ 20) :
    ci ≠ uint32Max := by
  rintro rfl
  rw [show uint32Max.toNat = 2 ^ 32 - 1 from rfl] at h
  omega

theorem ok_construct (garbage : JournalState) : (construct garbage).Ok where
  wf := PacketList.wf_empty
  idle _ := rfl
  sane h := by cases h
  seen h := by cases h
  busy h := by cases h
  missing h := by cases h

/-- A transfer that starts or resumes. -/
theorem steady_activate (rx : CfdpReceiver) (h : rx.state.Sane) : rx.activate.Steady where
  wf := PacketList.wf_empty
  idle _ := rfl
  sane _ := h
  seen _ := h.totalChunks.1
  busy _ hne := absurd rfl hne

theorem steady_deactivate {r : CfdpReceiver} (h : r.Steady) : r.deactivate.Ok where
  wf := h.wf
  idle := h.idle
  sane h := by cases h
  seen h := by cases h
  busy h := by cases h
  missing h := by cases h

theorem Steady.markEof (h : rx.Steady) :
    Steady { rx with state := rx.state.markEof } where
  wf := h.wf
  idle := h.idle
  sane ha := (h.sane ha).markEof
  seen := h.seen
  busy ha hne := ⟨(h.busy ha hne).lt, (h.busy ha hne).seen, (h.busy ha hne).open_,
    (h.busy ha hne).slots, (h.busy ha hne).incomplete⟩

theorem unfinished_iff : rx.unfinished = true ↔
    rx.currentChunkIndex ≠ uint32Max ∧ rx.packetList.isComplete = false := by
  simp [unfinished]

theorem Steady.unfinished_missing (h : rx.Steady) (ha : rx.transferActive = true)
    (hu : rx.unfinished = true) : rx.state.computeMissingChunks ≠ [] := by
  have hb := h.busy ha (unfinished_iff.mp hu).1
  intro hm
  have := (JournalState.computeMissingChunks_eq_nil _).mp hm _ (UInt32.lt_iff_toNat_lt.mpr hb.lt)
  rw [hb.open_] at this; cases this

theorem Steady.not_unfinished (h : rx.Steady) (ha : rx.transferActive = true) :
    rx.unfinished = false ↔ rx.currentChunkIndex = uint32Max := by
  constructor
  · intro hu
    by_contra hne
    rw [unfinished_iff.mpr ⟨hne, (h.busy ha hne).incomplete⟩] at hu; cases hu
  · intro he; simp [unfinished, he]

theorem complete_ok (h : rx.Steady) (verified : Bool) : (rx.complete verified).1.Ok := by
  have hstay (hm : rx.transferActive = true → rx.state.eofReceived = true →
      rx.state.computeMissingChunks ≠ []) : rx.Ok := ⟨h, hm⟩
  unfold complete
  rcases rx.completionCase with ⟨he, hc⟩ | ⟨he, hu, hc⟩ | ⟨he, hu, cr, hm, hc⟩ | ⟨he, hu, hm, hne, hc⟩ |
    ⟨he, hu, hm, hc⟩
  · rw [hc]
    exact hstay fun _ h' => by rw [he] at h'; cases h'
  · have hok := hstay fun ha _ => h.unfinished_missing ha hu
    rw [hc]
    cases rx.packetNak <;> exact hok
  · rw [hc]
    refine hstay fun _ _ hn => ?_
    rw [sentMissing, hn] at hm; cases hm
  · rw [hc]
    exact hstay fun _ _ => hne
  · rw [hc]
    cases verified
    · exact steady_deactivate h
    · exact steady_deactivate (r := { rx with lastAckedId := rx.state.transactionId })
        ⟨h.wf, h.idle, h.sane, h.seen, fun ha hne =>
          ⟨(h.busy ha hne).lt, (h.busy ha hne).seen, (h.busy ha hne).open_, (h.busy ha hne).slots,
            (h.busy ha hne).incomplete⟩⟩

/-! ## Data PDUs -/

/-- What the tests on a Data PDU establish. -/
structure Accepted (rx : CfdpReceiver) (dpdu : DataPdu) : Prop where
  active : rx.transferActive = true
  tid : dpdu.transactionId = rx.state.transactionId
  len : 0 < dpdu.dataLen.toNat ∧ dpdu.dataLen.toNat ≤ defaultPacketSize
  chunk : dpdu.chunkIndex.toNat < rx.state.totalChunks.toNat
  packets : dpdu.totalPackets = rx.state.expectedPkts dpdu.chunkIndex

theorem acceptsData_iff {dpdu : DataPdu} : rx.acceptsData dpdu = true ↔ rx.Accepted dpdu := by
  have hz : dpdu.dataLen = 0 ↔ dpdu.dataLen.toNat = 0 := by rw [← UInt32.toNat_inj]; rfl
  simp only [acceptsData, Bool.and_eq_true, Bool.not_eq_true', Bool.or_eq_false_iff, bne_eq_false_iff_eq,
    beq_eq_false_iff_ne, decide_eq_false_iff_not, ne_eq, hz, ge_iff_le, UInt32.le_iff_toNat_le]
  constructor
  · rintro ⟨h1, h2, ⟨h3, h4⟩, h5, h6⟩
    exact ⟨h1, h2, by omega, by omega, h6⟩
  · rintro ⟨h1, h2, h3, h4, h5⟩
    exact ⟨h1, h2, by omega, by omega, h5⟩

section

variable {ci n : UInt32} {dpdu : DataPdu}

@[simp] theorem see_state : (see ci rx).state = rx.state := by unfold see; split <;> rfl
@[simp] theorem see_transferActive : (see ci rx).transferActive = rx.transferActive := by
  unfold see; split <;> rfl
@[simp] theorem see_currentChunkIndex : (see ci rx).currentChunkIndex = rx.currentChunkIndex := by
  unfold see; split <;> rfl
@[simp] theorem see_packetList : (see ci rx).packetList = rx.packetList := by
  unfold see; split <;> rfl
@[simp] theorem see_lastAckedId : (see ci rx).lastAckedId = rx.lastAckedId := by
  unfold see; split <;> rfl
@[simp] theorem see_maxChunkSeen :
    (see ci rx).maxChunkSeen.toNat = max rx.maxChunkSeen.toNat ci.toNat := by
  unfold see
  split
  · next h => rw [gt_iff_lt, UInt32.lt_iff_toNat_lt] at h; simp only; omega
  · next h => rw [gt_iff_lt, UInt32.lt_iff_toNat_lt] at h; omega
@[simp] theorem enter_state : (enter ci n rx).state = rx.state := by unfold enter; split <;> rfl
@[simp] theorem enter_transferActive : (enter ci n rx).transferActive = rx.transferActive := by
  unfold enter; split <;> rfl
@[simp] theorem enter_lastAckedId : (enter ci n rx).lastAckedId = rx.lastAckedId := by
  unfold enter; split <;> rfl
@[simp] theorem enter_maxChunkSeen : (enter ci n rx).maxChunkSeen = rx.maxChunkSeen := by
  unfold enter; split <;> rfl
@[simp] theorem enter_currentChunkIndex : (enter ci n rx).currentChunkIndex = ci := by
  unfold enter
  split
  · rfl
  · next h => simpa using Eq.symm (by simpa using h)
@[simp] theorem take_state : (take dpdu rx).state = rx.state := by simp [take, store]
@[simp] theorem take_transferActive : (take dpdu rx).transferActive = rx.transferActive := by
  simp [take, store]
@[simp] theorem take_lastAckedId : (take dpdu rx).lastAckedId = rx.lastAckedId := by
  simp [take, store]
@[simp] theorem take_maxChunkSeen :
    (take dpdu rx).maxChunkSeen.toNat = max rx.maxChunkSeen.toNat dpdu.chunkIndex.toNat := by
  simp [take, store]
@[simp] theorem take_currentChunkIndex : (take dpdu rx).currentChunkIndex = dpdu.chunkIndex := by
  simp [take, store]

/-- The packet list a Data PDU is inserted into. -/
def listFor (rx : CfdpReceiver) (dpdu : DataPdu) : PacketList :=
  if dpdu.chunkIndex = rx.currentChunkIndex then rx.packetList
  else PacketList.init {} dpdu.totalPackets

theorem take_packetList : (take dpdu rx).packetList =
    ((rx.listFor dpdu).insert dpdu.packetIndex dpdu.data (Crc.crc8 dpdu.data == dpdu.crc8)).2 := by
  simp only [take, store, enter, listFor, see_currentChunkIndex, bne_iff_ne, ne_eq, ite_not]
  split
  · simp
  · rfl

theorem flushed_take_state (rx : CfdpReceiver) (d : DataPdu) (ci : UInt32) :
    ((rx.take d).flushed ci).state = rx.state.markDone ci := by
  show (rx.take d).state.markDone ci = _
  rw [take_state]

theorem flushed_take_active (ha : rx.Accepted dpdu) (ci : UInt32) :
    ((rx.take dpdu).flushed ci).transferActive = true := by
  show (rx.take dpdu).transferActive = true
  rw [take_transferActive]
  exact ha.active

/-- The list a Data PDU goes into is well formed and has the slots of its chunk. -/
theorem Steady.listFor (h : rx.Steady) (ha : rx.Accepted dpdu) :
    (rx.listFor dpdu).Wf ∧ (rx.listFor dpdu).totalPackets = rx.state.expectedPkts dpdu.chunkIndex := by
  unfold CfdpReceiver.listFor
  split
  · next hc =>
    have hne := ne_uint32Max ha.chunk (h.sane ha.active).totalChunks.2
    rw [hc] at hne ⊢
    exact ⟨h.wf, (h.busy ha.active hne).slots⟩
  · exact ⟨PacketList.wf_init _ _, ha.packets⟩

/-- A list is not complete before its last packet is stored. -/
theorem Steady.listFor_incomplete (h : rx.Steady) (ha : rx.Accepted dpdu) :
    (rx.listFor dpdu).isComplete = false := by
  unfold CfdpReceiver.listFor
  split
  · next hc =>
    have hne := ne_uint32Max ha.chunk (h.sane ha.active).totalChunks.2
    exact (h.busy ha.active (hc ▸ hne)).incomplete
  · by_contra hc
    obtain ⟨hpos, h0⟩ := PacketList.isComplete_iff_count.mp (by simpa using hc)
    -- a new list counts no slot
    rw [← h0] at hpos
    exact absurd hpos (Nat.lt_irrefl 0)

theorem Steady.see (h : rx.Steady) (ha : rx.Accepted dpdu) : (see dpdu.chunkIndex rx).Steady where
  wf := by rw [see_packetList]; exact h.wf
  idle := by rw [see_currentChunkIndex, see_packetList]; exact h.idle
  sane _ := by rw [see_state]; exact h.sane ha.active
  seen _ := by
    have := h.seen ha.active; have := ha.chunk
    rw [see_maxChunkSeen, see_state]; omega
  busy _ hne := by
    rw [see_currentChunkIndex] at hne
    have hb := h.busy ha.active hne
    have hs := hb.seen
    exact ⟨by simpa using hb.lt, by simp only [see_currentChunkIndex, see_maxChunkSeen]; omega,
      by simpa using hb.open_, by simpa using hb.slots, by simpa using hb.incomplete⟩

/-- After a packet is stored, only completeness of the list is open. -/
theorem Steady.take (h : rx.Steady) (ha : rx.Accepted dpdu)
    (hd : rx.state.isDone dpdu.chunkIndex = false)
    (hc : (take dpdu rx).packetList.isComplete = false) : (take dpdu rx).Steady where
  wf := by rw [take_packetList]; exact (h.listFor ha).1.insert _ _ _
  idle he := absurd (take_currentChunkIndex.symm.trans he)
    (ne_uint32Max ha.chunk (h.sane ha.active).totalChunks.2)
  sane _ := by rw [take_state]; exact h.sane ha.active
  seen _ := by
    have := h.seen ha.active; have := ha.chunk
    rw [take_maxChunkSeen, take_state]; omega
  busy _ _ :=
    { lt := by rw [take_currentChunkIndex, take_state]; exact ha.chunk
      seen := by rw [take_currentChunkIndex, take_maxChunkSeen]; omega
      open_ := by rw [take_currentChunkIndex, take_state]; exact hd
      slots := by
        rw [take_packetList, PacketList.insert_totalPackets, take_currentChunkIndex, take_state]
        exact (h.listFor ha).2
      incomplete := hc }

/-- After a chunk is flushed no chunk is in progress. -/
theorem Steady.flushed (h : rx.Steady) (ha : rx.Accepted dpdu) :
    ((CfdpReceiver.take dpdu rx).flushed dpdu.chunkIndex).Steady where
  wf := PacketList.wf_empty
  idle _ := rfl
  sane _ := by rw [flushed_take_state]; exact (h.sane ha.active).markDone _
  seen _ := by
    have := h.seen ha.active; have := ha.chunk
    show (CfdpReceiver.take dpdu rx).maxChunkSeen.toNat <
      ((CfdpReceiver.take dpdu rx).state.markDone _).totalChunks.toNat
    rw [take_maxChunkSeen, take_state]
    show _ < rx.state.totalChunks.toNat
    omega
  busy _ hne := absurd rfl hne

end

/-! ## Every reply keeps the fields consistent -/

theorem Steady.start {env : Env} {o : Oracle} {metadata : MetadataPdu}
    (hs : metadata.sane = true) : (activate { rx with state := rx.state.start env o metadata }).Ok :=
  ⟨steady_activate _ (JournalState.start_sane hs _), fun _ h => by cases h⟩

theorem Ok.replyFlush {dpdu : DataPdu} (h : rx.Ok) (ha : rx.Accepted dpdu) (verified : Bool) :
    ((rx.take dpdu).replyFlush verified dpdu.chunkIndex).1.Ok := by
  unfold CfdpReceiver.replyFlush
  split
  · exact complete_ok (h.toSteady.flushed ha) verified
  · next he =>
    refine ⟨h.toSteady.flushed ha, fun _ he' => ?_⟩
    exact absurd he' he

theorem Ok.replyData (h : rx.Ok) (verified : Bool) (dpdu : DataPdu) :
    (rx.replyData verified dpdu).1.Ok := by
  unfold CfdpReceiver.replyData
  split
  · next ha =>
    have hacc := acceptsData_iff.mp ha
    split
    · refine ⟨h.toSteady.see hacc, ?_⟩
      rw [see_transferActive, see_state]; exact h.missing
    · next hd =>
      split
      · exact h.replyFlush hacc verified
      · next hc =>
        refine ⟨h.toSteady.take hacc (by simpa using hd) (by simpa using hc), ?_⟩
        rw [take_transferActive, take_state]; exact h.missing
  · exact h

theorem Ok.reply {env : Env} {o : Oracle} (h : rx.Ok) (verified : Bool) (raw : Bytes) :
    (rx.reply env o verified raw).1.Ok := by
  unfold CfdpReceiver.reply
  cases decodePdu raw with
  | none => exact h
  | some pdu =>
    cases pdu with
    | metadata metadata =>
      simp only [replyPdu, replyMetadata]
      split
      · exact h
      · split
        · next ha => exact Steady.start (sane_of_accepts ha)
        · exact h
    | data dpdu => exact h.replyData verified dpdu
    | eof eof =>
      simp only [replyPdu, replyEof]
      split
      · exact complete_ok h.toSteady.markEof verified
      · exact h
    | resumeQuery query => exact h

/-! ## Where the record comes from -/

@[simp] theorem complete_state (rx : CfdpReceiver) (verified : Bool) :
    (rx.complete verified).1.state = rx.state := by
  unfold complete
  cases rx.completion with
  | silent => rfl
  | nak => rfl
  | verify => cases verified <;> rfl

/-- A property of records kept by the marks and by an accepted Metadata is kept by every reply. -/
theorem reply_state {P : JournalState → Prop} (hP : Marked P) {env : Env} {o : Oracle}
    {verified : Bool} {raw : Bytes} (h : P rx.state)
    (hstart : ∀ m, decodePdu raw = some (.metadata m) → rx.accepts m = true →
      P (rx.state.start env o m)) : P (rx.reply env o verified raw).1.state := by
  unfold reply
  cases hd : decodePdu raw with
  | none => exact h
  | some pdu =>
    cases pdu with
    | metadata m =>
      simp only [replyPdu, replyMetadata]
      split
      · exact h
      · split
        · next ha => exact hstart m hd ha
        · exact h
    | data dpdu =>
      simp only [replyPdu, replyData]
      split
      · split
        · rw [see_state]; exact h
        · split
          · have hm : P ((take dpdu rx).flushed dpdu.chunkIndex).state := by
              rw [flushed_take_state]; exact hP.markDone _ _ h
            simp only [replyFlush]
            split
            · rw [complete_state]; exact hm
            · exact hm
          · rw [take_state]; exact h
      · exact h
    | eof eof =>
      simp only [replyPdu, replyEof]
      split
      · rw [complete_state]; exact hP.markEof _ h
      · exact h
    | resumeQuery query => exact h

/-- A receiver without a transfer stays so unless it accepts a Metadata. -/
theorem reply_idle {env : Env} {o : Oracle} {verified : Bool} {raw : Bytes}
    (ha : rx.transferActive = false)
    (hm : ∀ m, decodePdu raw = some (.metadata m) → rx.accepts m = false) :
    (rx.reply env o verified raw).1.transferActive = false := by
  unfold reply
  cases hd : decodePdu raw with
  | none => exact ha
  | some pdu =>
    cases pdu with
    | metadata m =>
      simp only [replyPdu, replyMetadata, hm m hd, Bool.false_eq_true, if_false]
      split <;> exact ha
    | data dpdu =>
      have : rx.acceptsData dpdu = false := by
        by_contra h
        have := (acceptsData_iff.mp (by simpa using h)).active
        rw [ha] at this; cases this
      simp only [replyPdu, replyData, this, Bool.false_eq_true, if_false]
      exact ha
    | eof eof =>
      simp only [replyPdu, replyEof, acceptsEof, ha, Bool.false_and, Bool.false_eq_true, if_false]
    | resumeQuery query => exact ha

/-- A property of the records of active transfers is kept, too. -/
theorem reply_record {P : JournalState → Prop} (hP : Marked P) {env : Env} {o : Oracle}
    {verified : Bool} {raw : Bytes} (h : rx.transferActive = true → P rx.state)
    (hstart : ∀ m, decodePdu raw = some (.metadata m) → rx.accepts m = true →
      P (rx.state.start env o m)) (ha : (rx.reply env o verified raw).1.transferActive = true) :
    P (rx.reply env o verified raw).1.state := by
  cases hact : rx.transferActive with
  | true => exact reply_state hP (h hact) hstart
  | false =>
    by_cases hm : ∃ m, decodePdu raw = some (.metadata m) ∧ rx.accepts m = true
    · obtain ⟨m, hd, hacc⟩ := hm
      simp only [reply, hd, replyPdu, replyMetadata, accepts_repeatsAck hacc, hacc, if_true,
        Bool.false_eq_true, if_false]
      exact hstart m hd hacc
    · rw [reply_idle hact fun m hd => by simpa using fun hacc => hm ⟨m, hd, hacc⟩] at ha
      cases ha

end CfdpReceiver

/-! ## Nodes -/

/-- What holds between PDUs and while the receiver is off. -/
def Node.Ok : Node → Prop
  | .up w => w.rx.Ok ∧ JournalAll JournalState.Sane w.disk
  | .down disk _ => JournalAll JournalState.Sane disk

section

variable {env : Env} {w : World} {o : Oracle}

/-- A sane journal that opens is loaded. -/
theorem JournalAll.loads {P : JournalState → Prop} (h : JournalAll P w.disk)
    (hne : w.disk.stateBin ≠ none) (ho : o.fails .journalOpen = false) :
    ∃ s, P s ∧ w.disk.stateBin = some s.encode ∧ JournalState.decode w.disk.stateBin = some s ∧
      w.loads o = (true, s) := by
  cases hb : w.disk.stateBin with
  | none => exact absurd hb hne
  | some c =>
    obtain ⟨s, rfl, hlen, hp⟩ := h c hb
    refine ⟨s, hp, rfl, JournalState.decode_encode s hlen, ?_⟩
    rw [World.loads, ho, if_neg Bool.false_ne_true, hb, JournalState.readFromDisk_encode _ s _ hlen]

theorem CfdpReceiver.Ok.replyBoot (garbage : JournalState) (h : JournalAll JournalState.Sane w.disk)
    (hrx : w.rx = .construct garbage) (verified : Bool) :
    (w.rx.replyBoot verified (w.loaded o)).1.Ok := by
  unfold World.loaded
  split
  · rw [hrx]; exact CfdpReceiver.ok_construct garbage
  · next hne =>
    cases ho : o.fails .journalOpen with
    | true =>
      rw [World.loads, ho, if_pos rfl, hrx]
      exact CfdpReceiver.ok_construct garbage
    | false =>
      obtain ⟨s, hs, -, -, hl⟩ := h.loads hne ho
      have hst : (CfdpReceiver.activate { w.rx with state := s }).Steady :=
        CfdpReceiver.steady_activate _ hs
      rw [hl]
      simp only [CfdpReceiver.replyBoot]
      split
      · exact CfdpReceiver.complete_ok hst verified
      · next hc => exact ⟨hst, fun _ he hm => hc ⟨hm, he⟩⟩

theorem CfdpReceiver.replyBoot_record {P : JournalState → Prop} {garbage : JournalState}
    {verified : Bool} (h : JournalAll P w.disk) (hrx : w.rx = .construct garbage) :
    (w.rx.replyBoot verified (w.loaded o)).1.transferActive = true →
      P (w.rx.replyBoot verified (w.loaded o)).1.state := by
  unfold World.loaded
  split
  · rw [hrx]; exact fun ha => by cases ha
  · next hne =>
    cases ho : o.fails .journalOpen with
    | true =>
      rw [World.loads, ho, if_pos rfl, hrx]
      exact fun ha => by cases ha
    | false =>
      obtain ⟨s, hs, -, -, hl⟩ := h.loads hne ho
      rw [hl]
      simp only [CfdpReceiver.replyBoot]
      split
      · rw [CfdpReceiver.complete_state]; exact fun _ => hs
      · exact fun _ => hs

theorem Node.ok_step {n n' : Node} {a : Action} {ms : List Moment} (hn : n.Ok)
    (hs : Node.step env n a = some (ms, n')) : n'.Ok := by
  refine (@Node.inv_step env Node.Ok (fun _ => True) (fun _ _ => True) _ _ _ _ ?_ (fun w h => h.2) ?_
    hn trivial hs).1
  · intro w raw o cut hw _
    have hj := keepsJournal_onPduReceived env o raw marked_sane hw.2
      fun m _ hacc => JournalState.start_sane (CfdpReceiver.sane_of_accepts hacc) _
    refine wp_mono (wp_and hj (wp_reply raw)) (fun x h => ⟨trivial, h.1⟩) (fun _ x h => ?_)
      (fun _ x h => h.1)
    refine ⟨trivial, ?_, h.1⟩
    rw [h.2.1]; exact hw.1.reply _ raw
  · intro disk log garbage o cut hd _
    have hj := keepsJournal_onBoot env o (w := ⟨.construct garbage, disk, log⟩) hd
    refine wp_mono (wp_and hj replies_onBoot) (fun x h => ⟨trivial, h.1⟩) (fun _ x h => ?_)
      (fun _ x h => h.1)
    refine ⟨trivial, ?_, h.1⟩
    rw [h.2.1]
    exact CfdpReceiver.Ok.replyBoot (w := ⟨.construct garbage, disk, log⟩) garbage hd rfl _

theorem Node.Fresh.ok {n : Node} (h : n.Fresh) : n.Ok := by
  cases n with
  | up w => exact h.elim
  | down disk log =>
    intro c hc
    rw [h.1] at hc; cases hc

theorem Node.Run.ok_of {ok : Node → Action → Prop} {n n' : Node} {hist : List Moment} (hn : n.Ok)
    (h : Node.Run env ok n hist n') : n'.Ok :=
  h.inv (I := fun _ n => n.Ok) hn fun _ _ _ _ _ hi _ hs => Node.ok_step hi hs

/-- **Every run keeps the fields and the journal consistent.** -/
theorem Node.Run.ok {ok : Node → Action → Prop} {n n' : Node} {hist : List Moment} (hn : n.Fresh)
    (h : Node.Run env ok n hist n') : n'.Ok := Node.Run.ok_of hn.ok h

end

end Cfdp
