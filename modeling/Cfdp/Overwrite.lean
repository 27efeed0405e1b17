import Cfdp.ChunkWrites
import Cfdp.Corruption
import Cfdp.Resume

/-!
# What was at the destination before

`flush_chunk` creates the destination file only if it cannot be opened, and patches an
existing one in place. Of a file that was there already every byte of the source's length
is replaced (`Patched.marks`), and what lies beyond stays, whichever way the packets
arrive: the file received is the source file exactly if the old one was not longer
(`received_iff`).
-/

namespace Cfdp

open Crash Prog FileBytes

/-! ## The record after a PDU -/

namespace CfdpReceiver

variable {rx : CfdpReceiver} {env : Env} {o : Oracle} {verified : Bool} {raw : Bytes} {d : DataPdu}

/-- What a PDU makes of the record. -/
inductive NewState (env : Env) (o : Oracle) (raw : Bytes) (rx : CfdpReceiver) : JournalState → Prop
  | same : NewState env o raw rx rx.state
  | start (m : MetadataPdu) (hd : decodePdu raw = some (.metadata m)) (hacc : rx.accepts m = true) :
      NewState env o raw rx (rx.state.start env o m)
  | done (d : DataPdu) (hd : decodePdu raw = some (.data d)) (hc : rx.Completes d) :
      NewState env o raw rx (rx.state.markDone d.chunkIndex)
  | eof : NewState env o raw rx rx.state.markEof

theorem newState_reply (env : Env) (o : Oracle) (raw : Bytes) (rx : CfdpReceiver) (verified : Bool) :
    NewState env o raw rx (rx.reply env o verified raw).1.state := by
  cases hd : decodePdu raw with
  | none =>
    rw [reply, hd]
    exact .same
  | some pdu =>
    cases pdu with
    | metadata m =>
      simp only [reply, hd, replyPdu, replyMetadata]
      split
      · exact .same
      · split
        · next hacc => exact .start m hd hacc
        · exact .same
    | data d =>
      by_cases hc : rx.Completes d
      · rw [hc.marked hd]
        exact .done d hd hc
      · simp only [reply, hd, replyPdu, replyData]
        split
        · next hacc =>
          split
          · rw [see_state]
            exact .same
          · next hopen =>
            rw [if_neg fun hcomp => hc ⟨hacc, by simpa using hopen, hcomp⟩, take_state]
            exact .same
        · exact .same
    | eof eof =>
      simp only [reply, hd, replyPdu, replyEof]
      split
      · rw [complete_state]
        exact .eof
      · exact .same
    | resumeQuery query =>
      rw [reply, hd]
      exact .same

/-- If the file verifies the transfer ends with its final ACK. -/
theorem reply_closes (ha : rx.transferActive = true)
    (hn : (rx.reply env o true raw).1.transferActive = false) :
    AckPdu.raw ⟨rx.state.transactionId, uint32Max⟩ ∈ (rx.reply env o true raw).2 := by
  have hstays {r : CfdpReceiver} (hr : r.transferActive = true) (h : r.transferActive = false) :
      False := by
    rw [hr] at h
    cases h
  unfold reply at hn ⊢
  cases hd : decodePdu raw with
  | none =>
    rw [hd] at hn
    exact (hstays ha hn).elim
  | some pdu =>
    rw [hd] at hn
    cases pdu with
    | metadata m =>
      simp only [replyPdu, replyMetadata] at hn
      split at hn
      · exact (hstays ha hn).elim
      · split at hn
        · cases hn
        · exact (hstays ha hn).elim
    | data d =>
      simp only [replyPdu] at hn ⊢
      cases hacc : rx.acceptsData d with
      | false =>
        rw [replyData, if_neg (by rw [hacc]; exact Bool.false_ne_true)] at hn
        exact (hstays ha hn).elim
      | true =>
        cases hdone : rx.state.isDone d.chunkIndex with
        | true =>
          rw [replyData_done hacc hdone, see_transferActive] at hn
          exact (hstays ha hn).elim
        | false =>
          rcases replyData_open hacc hdone with h | ⟨-, h | h⟩
          · rw [h, take_transferActive] at hn
            exact (hstays ha hn).elim
          · rw [h] at hn
            exact (hstays (flushed_take_active (acceptsData_iff.mp hacc) _) hn).elim
          · exact h.2
    | eof eof =>
      simp only [replyPdu] at hn ⊢
      cases hacc : rx.acceptsEof eof with
      | false =>
        unfold replyEof at hn
        rw [if_neg (by rw [hacc]; exact Bool.false_ne_true)] at hn
        exact (hstays ha hn).elim
      | true =>
        rcases replyEof_true hacc with h | h
        · rw [h] at hn
          exact (hstays ha hn).elim
        · exact h.2
    | resumeQuery query => exact (hstays ha hn).elim

end CfdpReceiver

namespace Transfer

variable {env : Env} {x : Transfer} {o : Oracle} {rx : CfdpReceiver} {w w' : World} {raw : Bytes}
  {d : DataPdu}
  {out : List Bytes} {old : Option Bytes}

/-! ## Packets of the source file -/

theorem not_misfiled_packet {c p : Nat} (hin : x.InFile c p) : ¬ x.Misfiled rx (x.dataPdu c p) := by
  intro h
  apply h.wrong
  rw [hin.toNat_chunkIndex, hin.toNat_packetIndex]
  rfl

/-- A Data PDU that the sender emits is a packet of the file. -/
theorem Emits.data_eq (h : x.Emits env.crc32 raw) (hx : x.WellFormed)
    (hd : decodePdu raw = some (.data d)) :
    ∃ c p, x.InFile c p ∧ d = x.dataPdu c p := by
  cases h with
  | metadata hm =>
    obtain ⟨name, -, hd'⟩ := decodePdu_metadataPdu hm
    rw [hd'] at hd
    cases hd
  | data c p hpk =>
    obtain ⟨hin, rfl⟩ := packet_eq hpk
    rw [hin.decodePdu hx.packetSize.2] at hd
    cases hd
    exact ⟨c, p, hin, rfl⟩
  | eof =>
    rw [decodePdu_eofPdu] at hd
    cases hd
  | query =>
    rw [decodePdu_queryPdu] at hd
    cases hd

/-- The list a packet completes holds its chunk. -/
theorem FromSource.chunkData {c p : Nat} (h : x.FromSource w.rx) (hok : w.rx.Ok) (hx : x.WellFormed)
    (hin : x.InFile c p) (hc : w.rx.Completes (x.dataPdu c p)) :
    w.chunkData (x.dataPdu c p) = slice x.file (c * x.chunkSize) (x.chunkLen c) := by
  have ha := CfdpReceiver.acceptsData_iff.mp hc.accepts
  obtain ⟨hwf, -⟩ := hok.listFor ha
  have htot := hin.toNat_totalPackets
  have hslots : x.SlotsOk c (w.rx.listFor (x.dataPdu c p)) := by
    refine ⟨hwf, ?_, fun q node hq hnode => ?_⟩
    · rw [(hok.listFor ha).2, ← ha.packets]
      exact htot
    · obtain ⟨hcur, m, hm', -⟩ := CfdpReceiver.listFor_holds.mp ⟨node, hq, hnode⟩
      rw [CfdpReceiver.listFor, if_pos hcur.symm] at hq
      have := h q node hq hnode
      rwa [hcur, hin.toNat_chunkIndex] at this
  have hc' := hc.complete
  rw [CfdpReceiver.take_packetList] at hc'
  rw [World.chunkData, CfdpReceiver.take_packetList]
  exact (hslots.insert hin.toNat_packetIndex _).assemble hx.packetSize.1 hc'

/-! ## The destination file -/

/-- The receiver during the transfer `x`, with `old` at the destination when it began; `out` is
what it sent since. -/
structure Patched (env : Env) (x : Transfer) (old : Option Bytes) (w : World)
    (out : List Bytes) : Prop where
  ok : w.rx.Ok
  record : x.Matches env w.rx.state
  marks : x.MarksStored (w.disk.files (x.path env)) w.rx.state
  slots : x.FromSource w.rx
  fits : x.Fits (w.disk.files (x.path env)) ↔ x.Fits old
  ended : w.rx.transferActive = false → x.Fits old → x.finalAck ∈ out

/-- A file is never cut. -/
theorem fits_flushed {files : Bytes → Option Bytes} {p base : Bytes} {fileSize : UInt64} {off n : Nat}
    (ho : o.Smooth) (hs : fileSize.toNat = x.file.length) (hne : 0 < x.file.length)
    (hb : DestBase o files p fileSize base) :
    x.Fits (some (pwrite base off (slice x.file off n))) ↔ x.Fits (files p) := by
  rw [fits_iff, fits_iff, surplus_pwrite, surplus_base ho hs hne hb]

/-- The record stays that of the transfer. -/
theorem Patched.recordAfter (h : x.Patched env old w out) (hraw : x.Emits env.crc32 raw)
    {s : JournalState} (hs : w.rx.NewState env o raw s) : x.Matches env s := by
  cases hs with
  | same => exact h.record
  | start m hd hacc =>
    obtain ⟨name, hp, rfl⟩ := hraw.metadata_eq hd
    exact matches_start hp (CfdpReceiver.sane_of_accepts hacc) _
  | done d hd hc => exact h.record.markDone _
  | eof => exact h.record.markEof

/-- What a packet that completes its chunk makes of the destination file. -/
theorem Patched.flushed (h : x.Patched env old w out) (hx : x.WellFormed)
    (hraw : x.Emits env.crc32 raw)
    (ho : o.Smooth) {files : Bytes → Option Bytes} (hf : w.Flushes raw d) (hfl : w.Flushed o d files) :
    (x.Fits (files (x.path env)) ↔ x.Fits (w.disk.files (x.path env))) ∧
      x.MarksStored (files (x.path env)) (w.rx.state.markDone d.chunkIndex) := by
  obtain ⟨c, p, hin, rfl⟩ := hraw.data_eq hx hf.1
  have ha := CfdpReceiver.acceptsData_iff.mp hf.2.accepts
  have hne : 0 < x.file.length := List.length_pos_iff.mpr hx.file
  have hdest : w.dest = x.path env := h.record.path
  obtain ⟨hoff, -⟩ := h.record.offset ha.chunk
  have hoff' : w.chunkOffset (x.dataPdu c p) = c * x.chunkSize := by
    unfold World.chunkOffset
    rw [hoff, hin.toNat_chunkIndex]
  obtain ⟨base, hb, rfl⟩ := hfl
  rw [h.slots.chunkData h.ok hx hin hf.2, hoff', ← hdest, World.withDest_dest]
  have hlt : (x.dataPdu c p).chunkIndex.toNat < w.rx.state.chunkDone.length := by
    rw [h.record.sane.flags]
    exact ha.chunk
  have hchunk : c < x.totalChunks := by
    have hc := ha.chunk
    rwa [hin.toNat_chunkIndex, h.record.totalChunks] at hc
  have hstart := chunk_lt hx.chunkSize hchunk
  refine ⟨fits_flushed ho h.record.fileSize hne hb, MarksStored.markDone ?_ hlt ?_⟩
  · rw [hdest] at hb
    exact h.marks.mono ((extends_base ho h.record.fileSize hne hb).trans (extends_pwrite base _ _))
  · rw [hin.toNat_chunkIndex]
    exact chunkStored_pwrite hstart.le base

/-- **A PDU of the transfer keeps what the receiver has**, whatever was at the destination. -/
theorem Patched.receives (h : x.Patched env old w out) (hx : x.WellFormed)
    (hc : Crc.Composes env.crc32) (ho : o.Smooth) (hraw : x.Emits env.crc32 raw) :
    ∃ w' out', w.receive env (raw, o) = some w' ∧ w'.sent = w.sent ++ out' ∧
      x.Patched env old w' (out ++ out') := by
  have hne : 0 < x.file.length := List.length_pos_iff.mpr hx.file
  have hreceives : ∃ w', w.Receives env o raw w' := receives_of_dest h.ok ho fun d _ _ hzero => by
    have := h.record.fileSize
    rw [hzero] at this
    exact absurd this.symm hne.ne'
  obtain ⟨w', hw'⟩ := hreceives
  obtain ⟨hrx, hsent⟩ := hw'.replied
  have hnew := CfdpReceiver.newState_reply env o raw w.rx (verifyFileChecksum env o w')
  rw [← hrx] at hnew
  have hrec := h.recordAfter hraw hnew
  -- the files and the marks change together
  have hfiles : (x.Fits (w'.disk.files (x.path env)) ↔ x.Fits (w.disk.files (x.path env))) ∧
      x.MarksStored (w'.disk.files (x.path env)) w'.rx.state := by
    rcases hw'.spec (wp_files raw) with ⟨hsame, hno⟩ | ⟨d, hf, hfl⟩
    · rw [hsame]
      refine ⟨Iff.rfl, ?_⟩
      generalize w'.rx.state = s at hnew
      cases hnew with
      | same => exact h.marks
      | start m => exact marksStored_start _ _ _
      | done d hd hcomp => exact absurd ⟨hd, hcomp⟩ (hno d)
      | eof => exact h.marks.markEof
    · rw [hrx, hf.2.marked hf.1]
      exact h.flushed hx hraw ho hf hfl
  refine ⟨w', _, World.receive_eq_some.mpr hw', hsent, by rw [hrx]; exact h.ok.reply _ _, hrec, hfiles.2, ?_,
    hfiles.1.trans h.fits, fun hn hold => ?_⟩
  · rw [hrx]
    refine h.slots.reply h.ok fun d hd => ?_
    obtain ⟨c, p, hin, rfl⟩ := hraw.data_eq hx hd
    exact not_misfiled_packet hin
  · cases ha : w.rx.transferActive with
    | false => exact List.mem_append_left _ (h.ended ha hold)
    | true =>
      -- a file that fits verifies once every chunk is done
      have hverified : w.rx.transferActive = true →
          (w.rx.reply env o (verifyFileChecksum env o w') raw).1.state.computeMissingChunks = [] →
            verifyFileChecksum env o w' = true := fun _ hm => by
        rw [← hrx] at hm
        exact hrec.verified hx hc ho (hfiles.2.file (hfiles.1.mpr (h.fits.mpr hold)) hrec hm)
      rw [hrx, CfdpReceiver.reply_congr hverified] at hn
      rw [CfdpReceiver.reply_congr hverified]
      have := CfdpReceiver.reply_closes ha hn
      rw [h.record.tid] at this
      exact List.mem_append_right _ this

/-- PDUs of the transfer, one after the other. -/
theorem Patched.receivesAll (hx : x.WellFormed) (hc : Crc.Composes env.crc32)
    {ds : List (Bytes × Oracle)}
    (h : x.Patched env old w out) (hds : ∀ d ∈ ds, x.Emits env.crc32 d.1 ∧ d.2.Smooth) :
    ∃ w' out', w.receiveAll env ds = some w' ∧ w'.sent = w.sent ++ out' ∧
      x.Patched env old w' (out ++ out') := by
  induction ds generalizing w out with
  | nil => exact ⟨w, [], rfl, (List.append_nil _).symm, by rwa [List.append_nil]⟩
  | cons d ds ih =>
    obtain ⟨hraw, ho⟩ := hds d List.mem_cons_self
    obtain ⟨w₁, out₁, hw₁, hsent₁, h₁⟩ := h.receives hx hc ho hraw
    obtain ⟨w₂, out₂, hw₂, hsent₂, h₂⟩ := ih h₁ fun d hd => hds d (List.mem_cons_of_mem _ hd)
    refine ⟨w₂, out₁ ++ out₂, ?_, ?_, by rw [← List.append_assoc]; exact h₂⟩
    · rw [World.receiveAll_cons, hw₁]
      exact hw₂
    · rw [hsent₂, hsent₁, List.append_assoc]

/-- The Metadata begins the transfer. -/
theorem Begins.patched (hb : Begins x.tid w.rx) (hx : x.WellFormed) (env : Env) (o : Oracle) :
    ∃ w', w.receive env (x.metadataRaw env.crc32, o) = some w' ∧ w'.sent = w.sent ∧
      x.Patched env (w.disk.files (x.path env)) w' [] := by
  obtain ⟨name, hp, hd, hacc⟩ := hb.accepts hx env
  obtain ⟨w', hw'⟩ := receives_pdu env o w hd (by simp)
  obtain ⟨hrx, hsent⟩ := hw'.replied
  have hfiles := hw'.spec (keepsFiles_pdu hd (by simp))
  simp only [reply_of_decode hd, CfdpReceiver.replyPdu, CfdpReceiver.replyMetadata,
    CfdpReceiver.accepts_repeatsAck hacc, hacc, Bool.false_eq_true, if_false, if_true] at hrx hsent
  refine ⟨w', World.receive_eq_some.mpr hw', by rw [hsent, List.append_nil], ?_⟩
  have hsane := CfdpReceiver.sane_of_accepts hacc
  refine ⟨?_, ?_, ?_, ?_, by rw [hfiles], fun hn => ?_⟩
  · rw [hrx]
    exact CfdpReceiver.Steady.start hsane
  · rw [hrx]
    exact matches_start hp hsane _
  · rw [hrx]
    exact marksStored_start _ _ _
  · rw [hrx]
    exact fromSource_of_empty rfl
  · rw [hrx] at hn
    cases hn

/-! ## Every transfer -/

/-- **The file received is the source file exactly if what was at the destination was not longer.**
Whatever the receiver has been through, from the Metadata on any PDUs of the transfer that bring
all chunks leave the source file there if and only if the file that was there fits; and once the
Eof has come too, the final ACK is sent with the source file in place if and only if it fits. -/
theorem received_iff {ds : List (Bytes × Oracle)} (hx : x.WellFormed) (hc : Crc.Composes env.crc32)
    (hb : Begins x.tid w.rx) (hds : ∀ d ∈ ds, x.Emits env.crc32 d.1 ∧ d.2.Smooth) :
    ∃ w' out, w.receiveAll env ((x.metadataRaw env.crc32, o) :: ds) = some w' ∧
      w'.sent = w.sent ++ out ∧
      (w'.rx.state.computeMissingChunks = [] →
        (w'.disk.files (x.path env) = some x.file ↔ x.Fits (w.disk.files (x.path env))) ∧
          (w'.rx.state.eofReceived = true →
            (x.Completed env w' out ↔ x.Fits (w.disk.files (x.path env))))) := by
  obtain ⟨w₁, hw₁, hsent₁, h₁⟩ := hb.patched hx env o
  obtain ⟨w', out, hw', hsent', h'⟩ := h₁.receivesAll hx hc hds
  rw [List.nil_append] at h'
  refine ⟨w', out, ?_, by rw [hsent', hsent₁], fun hm => ?_⟩
  · rw [World.receiveAll_cons, hw₁]
    exact hw'
  have hiff : w'.disk.files (x.path env) = some x.file ↔ x.Fits (w.disk.files (x.path env)) := by
    rw [← h'.fits]
    constructor
    · intro hfile g hg
      rw [hfile] at hg
      cases hg
      exact Nat.le_refl _
    · exact fun hfit => h'.marks.file hfit h'.record hm
  refine ⟨hiff, fun he => ⟨fun hc => hiff.mp hc.2, fun hfit => ⟨h'.ended ?_ hfit, hiff.mpr hfit⟩⟩⟩
  -- an active receiver that has the Eof misses a chunk
  cases ha : w'.rx.transferActive with
  | false => rfl
  | true => exact absurd hm (h'.ok.missing ha he)

/-- A receiver just booted, with `content` at the destination. -/
def booted (content : Option Bytes) : World := ⟨.construct .blank, ⟨none, none, fun _ => content⟩, []⟩

/-- The PDUs of a file of one byte that follow the Metadata. -/
def afterMetadata : List (Bytes × Oracle) :=
  [((small [0x61]).packetRaw 0 0, noFaults), ((small [0x61]).eofPdu sampleEnv.crc32, noFaults)]

theorem begins_booted (content : Option Bytes) : Begins (small [0x61]).tid (booted content).rx where
  active h := by cases h
  idle _ := (by decide : (0 : UInt32) ≠ 1)

theorem emits_afterMetadata :
    ∀ d ∈ afterMetadata, (small [0x61]).Emits sampleEnv.crc32 d.1 ∧ d.2.Smooth := by
  intro d hd
  unfold afterMetadata at hd
  rcases List.mem_cons.mp hd with rfl | hd
  · refine ⟨?_, smooth_noFaults⟩
    show (small [0x61]).Emits sampleEnv.crc32 ((small [0x61]).packetRaw 0 0)
    exact emits_packetRaw (by decide +kernel)
  · rw [List.mem_singleton.mp hd]
    exact ⟨.eof, smooth_noFaults⟩

/-- Over a file of the same length. -/
theorem received_small : ∃ w' out, (booted (some [0x62])).receiveAll sampleEnv
    (((small [0x61]).metadataRaw sampleEnv.crc32, noFaults) :: afterMetadata) = some w' ∧
      (small [0x61]).Completed sampleEnv w' out := by
  have hrun : ((booted (some [0x62])).receiveAll sampleEnv
      (((small [0x61]).metadataRaw sampleEnv.crc32, noFaults) :: afterMetadata)).any (fun w' =>
        decide (w'.rx.state.computeMissingChunks = []) && w'.rx.state.eofReceived) = true := by
    decide +kernel
  obtain ⟨w', out, hw', -, hall⟩ := received_iff (o := noFaults) (wellFormed_small (by simp) (by simp))
    Crc.composes_zlibCrc32 (begins_booted (some [0x62])) emits_afterMetadata
  rw [hw'] at hrun
  simp only [Option.any_some, Bool.and_eq_true, decide_eq_true_eq] at hrun
  exact ⟨w', out, hw', ((hall hrun.1).2 hrun.2).mpr fun g hg => by cases hg; decide⟩

/-- Of a longer file the last byte stays. -/
theorem not_received : ¬ ∀ (env : Env) (x : Transfer) (o : Oracle) (n : Node) (hist : List Moment)
    (w w' : World) (ds : List (Bytes × Oracle)), x.WellFormed → Crc.Composes env.crc32 → n.Fresh →
      Node.Run env (fun _ _ => True) n hist (.up w) → Begins x.tid w.rx → o.Smooth →
        (∀ d ∈ ds, x.Emits env.crc32 d.1 ∧ d.2.Smooth) →
          w.receiveAll env ((x.metadataRaw env.crc32, o) :: ds) = some w' →
            w'.rx.state.computeMissingChunks = [] → w'.disk.files (x.path env) = some x.file := by
  intro h
  have hrun : ((booted (some [0x62, 0x62])).receiveAll sampleEnv
      (((small [0x61]).metadataRaw sampleEnv.crc32, noFaults) :: afterMetadata)).any (fun w' =>
        decide (w'.rx.state.computeMissingChunks = []) &&
          decide (w'.disk.files ((small [0x61]).path sampleEnv) = some [0x61, 0x62])) = true := by
    decide +kernel
  simp only [Option.any_eq_true, Bool.and_eq_true, decide_eq_true_eq] at hrun
  obtain ⟨w', hw', hm, hfile⟩ := hrun
  generalize hn : Node.down ⟨none, none, fun _ => some [0x62, 0x62]⟩ [] = n
  have hboot : ∃ ms, Node.step sampleEnv n powerOn = some (ms, .up (booted (some [0x62, 0x62]))) := by
    rw [← hn]
    exact ⟨_, rfl⟩
  have hfresh : n.Fresh := by
    rw [← hn]
    exact ⟨rfl, rfl⟩
  obtain ⟨ms, hms⟩ := hboot
  have := h sampleEnv (small [0x61]) noFaults n _ _ w' afterMetadata
    (wellFormed_small (by simp) (by simp))
    Crc.composes_zlibCrc32 hfresh (.step .start trivial hms) (begins_booted _) smooth_noFaults
    emits_afterMetadata hw' hm
  rw [hfile] at this
  cases this

end Transfer

end Cfdp
