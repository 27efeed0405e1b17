import Cfdp.Invariant
import Cfdp.Sender

/-!
# Where final ACKs come from

A final ACK for transaction `t` is sound at a point of a run if a Metadata of
`t` was accepted before, and from then on some moment had every chunk of `t`
done and the received file there with the checksum of that Metadata
(`Finished`). `check_completion` sends sound final ACKs, provided it can read
the file when the expected checksum is 0. The branch of `handle_metadata` for a
transaction already finished compares the Metadata with `last_acked_id_` but
acknowledges `state_.transaction_id`; it is sound when these agree.
-/

namespace Cfdp

open Crash Prog Machine

/-! ## Sound final ACKs -/

/-- `s` is the record of the transfer that Metadata `m` starts. -/
structure FromMetadata (env : Env) (m : MetadataPdu) (s : JournalState) : Prop where
  tid : s.transactionId = m.transactionId
  totalChunks : s.totalChunks = m.totalChunks
  checksum : s.checksumExpected = m.checksum
  path : ∃ o, s.recvFilePath = destString env o m

/-- Every chunk of `m` is done and its file has the checksum of `m`. -/
structure Verified (env : Env) (m : MetadataPdu) (w : World) : Prop where
  record : FromMetadata env m w.rx.state
  done : ∀ ci, ci < m.totalChunks → w.rx.state.isDone ci = true
  file : ∃ content, w.disk.files w.rx.state.recvFilePath = some content ∧
    Crc.crc32File env.crc32 content = m.checksum

/-- In `hist`, a Metadata of `t` was accepted and later verified. -/
def Finished (env : Env) (hist : List Moment) (t : UInt32) : Prop :=
  ∃ before m after, hist = before ++ .accepted m :: after ∧ m.transactionId = t ∧
    ∃ v, .passed v ∈ after ∧ Verified env m v

/-- Whenever a final ACK has been sent, its transaction is finished by then. -/
def FinalAcksSound (env : Env) (hist : List Moment) : Prop :=
  ∀ before w after, hist = before ++ .passed w :: after →
    ∀ t, .sent (AckPdu.raw ⟨t, uint32Max⟩) ∈ w.log → Finished env (before ++ [.passed w]) t

theorem Finished.append {env : Env} {hist : List Moment} {t : UInt32} (h : Finished env hist t)
    (hist' : List Moment) : Finished env (hist ++ hist') t := by
  obtain ⟨before, m, after, rfl, ht, v, hv, hver⟩ := h
  exact ⟨before, m, after ++ hist', by simp, ht, v, List.mem_append_left _ hv, hver⟩

/-- A moment that verifies a Metadata accepted before finishes its transaction. -/
theorem finished_of_verified {env : Env} {hist hist' : List Moment} {m : MetadataPdu} {v : World}
    (hm : .accepted m ∈ hist) (hv : .passed v ∈ hist') (h : Verified env m v) :
    Finished env (hist ++ hist') m.transactionId := by
  obtain ⟨before, after, rfl⟩ := List.append_of_mem hm
  exact ⟨before, m, after ++ hist', by simp, rfl, v, List.mem_append_right _ hv, h⟩

/-! ## The condition -/

/-- If the expected checksum is 0, the file opens; it exists if every chunk is done. -/
def Checkable (o : Oracle) (files : Bytes → Option Bytes) (s : JournalState) : Prop :=
  s.checksumExpected = 0 → o.fails .destRead = false ∧
    (s.computeMissingChunks = [] → (files s.recvFilePath).isSome = true)

/-- The transaction the fields hold is the one last acknowledged; if that is 0, the
initial value of `last_acked_id_`, it has been acknowledged indeed. -/
def World.HoldsLastAcked (w : World) : Prop :=
  w.rx.state.transactionId = w.rx.lastAckedId ∧
    (w.rx.lastAckedId = 0 → .sent (AckPdu.raw ⟨0, uint32Max⟩) ∈ w.log)

/-- The steps after which final ACKs stay sound. -/
def FinalAckSafe : Node → Action → Prop
  | .up w, .recv raw o _ =>
    (w.rx.transferActive = true → Checkable o w.disk.files w.rx.state) ∧
      ∀ m, decodePdu raw = some (.metadata m) → w.rx.repeatsAck m = true → w.HoldsLastAcked
  | .down disk _, .boot _ o _ =>
    ∀ s, JournalState.decode disk.stateBin = some s → Checkable o disk.files s
  | _, _ => True

instance (o : Oracle) (files : Bytes → Option Bytes) (s : JournalState) :
    Decidable (Checkable o files s) :=
  inferInstanceAs (Decidable (_ → _ ∧ _))

instance (w : World) : Decidable w.HoldsLastAcked :=
  inferInstanceAs (Decidable (_ ∧ _))

instance : (n : Node) → (a : Action) → Decidable (FinalAckSafe n a)
  | .up w, .recv raw o _ =>
    have : Decidable (∀ m, decodePdu raw = some (.metadata m) → w.rx.repeatsAck m = true →
        w.HoldsLastAcked) :=
      match hd : decodePdu raw with
      | some (.metadata m) => decidable_of_iff (w.rx.repeatsAck m = true → w.HoldsLastAcked)
          ⟨fun h m' hm' => by cases hm'; exact h, fun h => h m rfl⟩
      | some (.data _) | some (.eof _) | some (.resumeQuery _) | none => isTrue fun _ h => by cases h
    inferInstanceAs (Decidable (_ ∧ _))
  | .down disk _, .boot _ o _ =>
    match hd : JournalState.decode disk.stateBin with
    | some s => decidable_of_iff (Checkable o disk.files s)
        ⟨fun h s' hs' => by rw [hd] at hs'; cases hs'; exact h, fun h => h s hd⟩
    | none => isTrue fun s hs => by rw [hd] at hs; cases hs
  | .up _, .crash | .up _, .boot _ _ _ | .down _ _, .recv _ _ _ | .down _ _, .crash => isTrue trivial

/-! ## Proof -/

section

variable {env : Env} {o : Oracle} {w w' : World} {hist hist' : List Moment} {t : UInt32}

/-- `s` is the record of an accepted Metadata. -/
def Origin (env : Env) (hist : List Moment) (s : JournalState) : Prop :=
  ∃ m, .accepted m ∈ hist ∧ FromMetadata env m s

theorem FromMetadata.markDone {m : MetadataPdu} {s : JournalState} (h : FromMetadata env m s)
    (ci : UInt32) : FromMetadata env m (s.markDone ci) := ⟨h.tid, h.totalChunks, h.checksum, h.path⟩

theorem FromMetadata.markEof {m : MetadataPdu} {s : JournalState} (h : FromMetadata env m s) :
    FromMetadata env m s.markEof := ⟨h.tid, h.totalChunks, h.checksum, h.path⟩

theorem marked_origin : Marked (Origin env hist) where
  markDone _ ci := fun ⟨m, hm, h⟩ => ⟨m, hm, h.markDone ci⟩
  markEof _ := fun ⟨m, hm, h⟩ => ⟨m, hm, h.markEof⟩

/-- By world `x` of a step after `hist`, transaction `t` is finished. -/
def FinishedBy (env : Env) (hist : List Moment) (x : World) (t : UInt32) : Prop :=
  Finished env hist t ∨ ∃ m, .accepted m ∈ hist ∧ m.transactionId = t ∧ Verified env m x

/-- Every final ACK in the log is finished. -/
def LogSound (env : Env) (hist : List Moment) (x : World) : Prop :=
  ∀ t, .sent (AckPdu.raw ⟨t, uint32Max⟩) ∈ x.log → FinishedBy env hist x t

/-- So is the transaction in `last_acked_id_`, unless it is the initial 0. -/
def FieldSound (env : Env) (hist : List Moment) (x : World) : Prop :=
  x.rx.lastAckedId ≠ 0 → FinishedBy env hist x x.rx.lastAckedId

/-- Before anything is verified in a step. -/
structure Before (env : Env) (hist : List Moment) (w : World) : Prop where
  log : ∀ t, .sent (AckPdu.raw ⟨t, uint32Max⟩) ∈ w.log → Finished env hist t
  field : w.rx.lastAckedId ≠ 0 → Finished env hist w.rx.lastAckedId

theorem Before.sound (h : Before env hist w) : LogSound env hist w ∧ FieldSound env hist w :=
  ⟨fun t ht => .inl (h.log t ht), fun hn => .inl (h.field hn)⟩

/-- Changes that send nothing final. -/
theorem Before.of_log (h : Before env hist w) (hr : w'.rx.lastAckedId = w.rx.lastAckedId)
    (hl : ∀ t, .sent (AckPdu.raw ⟨t, uint32Max⟩) ∈ w'.log → .sent (AckPdu.raw ⟨t, uint32Max⟩) ∈ w.log) :
    Before env hist w' :=
  ⟨fun t ht => h.log t (hl t ht), fun hn => by rw [hr] at hn ⊢; exact h.field hn⟩

theorem mem_snoc_journal {log : List Event} {u : JournalUpdate} {pdu : Bytes}
    (h : .sent pdu ∈ log ++ [.journal u]) : .sent pdu ∈ log := by
  simpa using h

theorem Before.setTmp (h : Before env hist w) (c : Option Bytes) : Before env hist (w.setTmp c) :=
  ⟨h.log, h.field⟩

theorem Before.setFile (h : Before env hist w) (path : Bytes) (c : Option Bytes) :
    Before env hist (w.setFile path c) := ⟨h.log, h.field⟩

theorem Before.setRx (h : Before env hist w) {f : CfdpReceiver → CfdpReceiver}
    (hf : (f w.rx).lastAckedId = w.rx.lastAckedId) : Before env hist (w.setRx f) :=
  h.of_log hf fun _ ht => ht

theorem Before.commit (h : Before env hist w) (u : JournalUpdate) (s : JournalState) :
    Before env hist (w.commit u s) :=
  h.of_log rfl fun _ ht => mem_snoc_journal ht

theorem Before.dropJournal (h : Before env hist w) : Before env hist w.dropJournal :=
  h.of_log rfl fun _ ht => mem_snoc_journal ht

theorem Before.send (h : Before env hist w) (pdu : Bytes)
    (hp : ∀ t, pdu = AckPdu.raw ⟨t, uint32Max⟩ → Finished env hist t) :
    Before env hist (w.send pdu) := by
  refine ⟨fun t ht => ?_, h.field⟩
  rcases List.mem_append.mp ht with ht | ht
  · exact h.log t ht
  · simp only [List.mem_singleton, Event.sent.injEq] at ht
    exact hp t ht.symm

theorem Before.sendOther (h : Before env hist w) {pdu : Bytes} (hp : ¬ IsAck pdu) :
    Before env hist (w.send pdu) :=
  h.send pdu fun _ he => absurd (he ▸ isAck_raw _) hp

theorem Before.updated {u : JournalUpdate} {f : JournalState → Option JournalState}
    (h : Before env hist w) (hu : Updated o w u f w') : Before env hist w' := by
  refine h.of_log (by rw [hu.alike.1]) fun t ht => ?_
  rcases hu with ⟨_, rfl, -⟩ | ⟨s, s', -, -, rfl⟩
  · exact ht
  · exact mem_snoc_journal ht

theorem Before.removed (h : Before env hist w) (hr : Removed o w w') : Before env hist w' := by
  refine h.of_log (by rw [hr.alike.1]) fun t ht => ?_
  rcases hr with ⟨rfl, -⟩ | ⟨rfl, -⟩
  · exact ht
  · exact mem_snoc_journal ht

/-- The final ACKs stay sound, at every moment. A program throws before it verifies. -/
abbrev KeepsSound (env : Env) (hist : List Moment) (p : M Unit) (w : World) : Prop :=
  wp p (LogSound env hist) (fun _ x => LogSound env hist x ∧ FieldSound env hist x)
    (fun _ => Before env hist) w

theorem verified_file (hv : verifyFileChecksum env o w = true)
    (hc : w.rx.state.checksumExpected = 0 → o.fails .destRead = false ∧
      (w.disk.files w.rx.state.recvFilePath).isSome = true) :
    ∃ content, w.disk.files w.rx.state.recvFilePath = some content ∧
      Crc.crc32File env.crc32 content = w.rx.state.checksumExpected := by
  unfold verifyFileChecksum at hv
  rw [beq_iff_eq, crc32OfPath] at hv
  split at hv
  · next hf =>
    rw [(hc hv.symm).1] at hf; cases hf
  · split at hv
    · next hn =>
      have := (hc hv.symm).2
      rw [hn] at this; cases this
    · next content hfile => exact ⟨content, hfile, hv⟩

theorem keepsSound_checkCompletion (h : Before env hist w) (horig : Origin env hist w.rx.state)
    (hc : Checkable o w.disk.files w.rx.state) : KeepsSound env hist (checkCompletion env o) w := by
  refine wp_checkCompletion (fun _ => h.sound) (fun pdu hp => ?_) (fun _ _ => ?_) fun hver hv => ?_
  · have h1 := (h.sendOther (CfdpReceiver.completion_not_ack hp)).sound
    exact ⟨h1.1, h1⟩
  · have h1 : Before env hist (w.setRx CfdpReceiver.deactivate) := h.setRx rfl
    exact ⟨fun _ => h1.dropJournal.sound.1,
      fun w' hr => (h1.removed hr).sound⟩
  obtain ⟨m, hm, hfrom⟩ := horig
  have hmiss := (CfdpReceiver.completion_verify hver).2.2
  -- this is the moment that verifies
  have hverified (x : World) (hs : x.rx.state = w.rx.state) (hf : x.disk.files = w.disk.files) :
      Verified env m x := by
    refine ⟨by rw [hs]; exact hfrom, fun ci hci => ?_, ?_⟩
    · rw [hs]
      exact (JournalState.computeMissingChunks_eq_nil _).mp hmiss ci (hfrom.totalChunks ▸ hci)
    · rw [hs, hf, ← hfrom.checksum]
      exact verified_file hv fun h0 => ⟨(hc h0).1, (hc h0).2 hmiss⟩
  have hsound (x : World) (hs : x.rx.state = w.rx.state) (hf : x.disk.files = w.disk.files)
      (hl : ∀ t, .sent (AckPdu.raw ⟨t, uint32Max⟩) ∈ x.log →
        .sent (AckPdu.raw ⟨t, uint32Max⟩) ∈ w.log ∨ t = w.rx.state.transactionId)
      (ha : x.rx.lastAckedId = w.rx.state.transactionId) :
      LogSound env hist x ∧ FieldSound env hist x := by
    have hfin : FinishedBy env hist x w.rx.state.transactionId :=
      .inr ⟨m, hm, hfrom.tid.symm, hverified x hs hf⟩
    refine ⟨fun t ht => ?_, fun _ => ha ▸ hfin⟩
    rcases hl t ht with ht | rfl
    · exact .inl (h.log t ht)
    · exact hfin
  have hlog (t : UInt32) (ht : .sent (AckPdu.raw ⟨t, uint32Max⟩) ∈ w.finalAck.log) :
      .sent (AckPdu.raw ⟨t, uint32Max⟩) ∈ w.log ∨ t = w.rx.state.transactionId := by
    simp only [World.finalAck, World.send_log, World.setRx_log, List.mem_append, List.mem_singleton,
      Event.sent.injEq, AckPdu.raw_inj, AckPdu.mk.injEq, and_true] at ht
    exact ht
  refine ⟨(hsound w.finalAck rfl rfl hlog rfl).1, fun _ => ?_, fun w' hr => ?_⟩
  · exact (hsound (w.finalAck.setRx CfdpReceiver.deactivate).dropJournal rfl rfl
      (fun t ht => hlog t (mem_snoc_journal ht)) rfl).1
  · obtain ⟨h1, -, h3⟩ := hr.alike
    refine hsound w' (by rw [h1]; rfl) (by rw [h3]; rfl) (fun t ht => hlog t ?_) (by rw [h1]; rfl)
    rcases hr with ⟨rfl, -⟩ | ⟨rfl, -⟩
    · exact ht
    · exact mem_snoc_journal ht

theorem keepsSound_flushChunk (h : Before env hist w) (horig : Origin env hist w.rx.state)
    (hc : w.rx.state.checksumExpected = 0 → o.fails .destRead = false) {ci : UInt32}
    (hci : ci ≠ uint32Max) : KeepsSound env hist (flushChunk env o ci) w := by
  refine wp_flushChunk (fun c _ => (h.setFile _ c).sound.1) (fun _ _ c _ => h.setFile _ c)
    fun base _ => ?_
  have h1 : Before env hist (w.wroteChunk ci base) := (h.setFile _ _).setRx rfl
  refine ⟨fun c => (h1.setTmp c).sound.1, fun _ _ _ _ => (h1.commit _ _).sound.1, fun w' hu => ?_⟩
  have h2 := (h1.updated hu).send (AckPdu.raw ⟨w'.rx.state.transactionId, ci⟩)
    fun t he => absurd (congrArg AckPdu.chunkIndex (AckPdu.raw_inj.mp he)) hci
  have h3 : Before env hist ((w'.send (AckPdu.raw ⟨w'.rx.state.transactionId, ci⟩)).setRx
      CfdpReceiver.clearList) := h2.setRx rfl
  refine ⟨h2.sound.1, fun _ => keepsSound_checkCompletion h3 ?_ fun h0 => ?_, fun _ => h3.sound⟩
  · show Origin env hist w'.rx.state
    rw [hu.alike.1]
    exact marked_origin.markDone _ ci horig
  · have h0' : w'.rx.state.checksumExpected = 0 := h0
    rw [hu.alike.1] at h0'
    refine ⟨hc h0', fun _ => ?_⟩
    show (w'.disk.files w'.rx.state.recvFilePath).isSome = true
    rw [hu.alike.1, hu.alike.2.2, World.wroteChunk, World.setRx_disk]
    show ((World.setFile _ _ _).disk.files w.rx.state.recvFilePath).isSome = true
    rw [World.setFile_files]; rfl

theorem keepsSound_metadata (metadata : MetadataPdu) (h : Before env hist w)
    (hrep : w.rx.repeatsAck metadata = true → w.HoldsLastAcked) :
    KeepsSound env hist (handleMetadata env o metadata) w := by
  refine wp_handleMetadata (fun _ _ => h.sound) (fun hr => ?_) fun hacc => ?_
  · -- the transaction acknowledged is the one that finished
    obtain ⟨ht, hz⟩ := hrep hr
    have hfin : Finished env hist w.rx.state.transactionId := by
      rw [ht]
      by_cases h0 : w.rx.lastAckedId = 0
      · rw [h0]; exact h.log 0 (hz h0)
      · exact h.field h0
    have h1 := (h.send (AckPdu.raw ⟨w.rx.state.transactionId, uint32Max⟩) fun t he => by
      have ht' : w.rx.state.transactionId = t :=
        congrArg AckPdu.transactionId (AckPdu.raw_inj.mp he)
      rwa [← ht']).sound
    exact ⟨h1.1, h1⟩
  refine ⟨fun _ => h.dropJournal.sound.1, ?_⟩
  rintro w₁ hr w₂ rfl
  have h1 : Before env hist (w₁.setRx fun rx => { rx with state := rx.state.start env o metadata }) :=
    (h.removed hr).setRx rfl
  refine ⟨fun c => (h1.setTmp c).sound.1, (h1.commit _ _).sound.1, fun w₃ hc => ?_⟩
  have h3 : Before env hist w₃ := by
    refine h1.of_log (by rw [hc.alike.1]) fun t ht => ?_
    rcases hc with ⟨_, rfl, -⟩ | rfl
    · exact ht
    · exact mem_snoc_journal ht
  exact (h3.setRx (f := CfdpReceiver.activate) rfl).sound

theorem keepsSound_data (dpdu : DataPdu) (h : Before env hist w) (hok : w.rx.Ok)
    (horig : w.rx.transferActive = true → Origin env hist w.rx.state)
    (hcheck : w.rx.transferActive = true → Checkable o w.disk.files w.rx.state) :
    KeepsSound env hist (handleData env o dpdu) w := by
  refine wp_handleData (fun _ => h.sound) (fun hacc hdone => ?_) fun hacc hdone => ?_
  · have ha := CfdpReceiver.acceptsData_iff.mp hacc
    have hne := CfdpReceiver.ne_uint32Max ha.chunk (hok.sane ha.active).totalChunks.2
    rintro w₁ rfl
    have h1 : Before env hist (w.setRx (CfdpReceiver.see dpdu.chunkIndex)) :=
      h.setRx (by simp)
    have h2 := (h1.send (AckPdu.raw ⟨w.rx.state.transactionId, dpdu.chunkIndex⟩)
      fun t he => absurd (congrArg AckPdu.chunkIndex (AckPdu.raw_inj.mp he)) hne).sound
    exact ⟨fun _ => ⟨h2.1, h2⟩, fun _ => h1.sound⟩
  have ha := CfdpReceiver.acceptsData_iff.mp hacc
  have hsend : Before env hist (w.sendOption (w.rx.leaveNak dpdu.chunkIndex)) :=
    CfdpReceiver.sendOption_leaveNak h fun _ hp => h.sendOther hp
  have h1 : Before env hist (w.setRx (CfdpReceiver.see dpdu.chunkIndex)) :=
    h.setRx (by simp)
  refine ⟨fun pdu hp => (h1.sendOther (CfdpReceiver.leaveNak_not_ack hp)).sound.1, ?_⟩
  rintro w₁ rfl
  have h2 : Before env hist ((w.sendOption (w.rx.leaveNak dpdu.chunkIndex)).setRx
      (CfdpReceiver.take dpdu)) := hsend.setRx (by simp)
  refine ⟨fun _ => keepsSound_flushChunk h2 ?_ ?_ ?_, fun _ => h2.sound⟩
  · simpa using horig ha.active
  · intro h0
    exact (hcheck ha.active (by simpa using h0)).1
  · exact CfdpReceiver.ne_uint32Max ha.chunk (hok.sane ha.active).totalChunks.2

theorem keepsSound_eof (eof : EofPdu) (h : Before env hist w)
    (horig : w.rx.transferActive = true → Origin env hist w.rx.state)
    (hcheck : w.rx.transferActive = true → Checkable o w.disk.files w.rx.state) :
    KeepsSound env hist (handleEof env o eof) w := by
  refine wp_handleEof (fun _ => h.sound) (fun hacc _ => ?_) fun hacc _ => ?_
  · have ha := CfdpReceiver.active_of_acceptsEof hacc
    exact keepsSound_checkCompletion h (horig ha) (hcheck ha)
  have ha := CfdpReceiver.active_of_acceptsEof hacc
  refine ⟨fun c => (h.setTmp c).sound.1, fun _ _ => (h.commit _ _).sound.1, fun w' hu => ?_⟩
  have h1 : Before env hist (w'.setRx fun rx => { rx with state := rx.state.markEof }) :=
    (h.updated hu).setRx rfl
  refine keepsSound_checkCompletion h1 ?_ ?_
  · show Origin env hist w'.rx.state.markEof
    rw [hu.alike.1]; exact marked_origin.markEof _ (horig ha)
  · show Checkable o w'.disk.files w'.rx.state.markEof
    rw [hu.alike.1, hu.alike.2.2]
    exact hcheck ha

theorem keepsSound_onPduReceived (h : Before env hist w) (hok : w.rx.Ok) {raw : Bytes}
    (horig : w.rx.transferActive = true → Origin env hist w.rx.state)
    (hsafe : FinalAckSafe (.up w) (.recv raw o none)) :
    KeepsSound env hist (onPduReceived env o raw) w := by
  obtain ⟨hcheck, hrep⟩ := hsafe
  unfold onPduReceived
  cases hd : decodePdu raw with
  | none => exact (wp_pure ()).mpr h.sound
  | some pdu =>
    cases pdu with
    | metadata metadata => exact keepsSound_metadata metadata h (hrep metadata hd)
    | data dpdu => exact keepsSound_data dpdu h hok horig hcheck
    | eof eof => exact keepsSound_eof eof h horig hcheck
    | resumeQuery query =>
      have h1 := (h.sendOther (not_isAck_info
        ⟨query.transactionId, firstMissingChunk w.rx query.transactionId⟩)).sound
      exact wp_handleResumeQuery.mpr ⟨h1.1, h1⟩

theorem keepsSound_onBoot {disk : Disk} {log : List Event} (garbage : JournalState)
    (h : ∀ t, .sent (AckPdu.raw ⟨t, uint32Max⟩) ∈ log → Finished env hist t)
    (hj : JournalAll (Origin env hist) disk)
    (hsafe : FinalAckSafe (.down disk log) (.boot garbage o none)) :
    KeepsSound env hist (onBoot env o) ⟨.construct garbage, disk, log⟩ := by
  have h0 : Before env hist ⟨.construct garbage, disk, log⟩ := ⟨h, fun hn => absurd rfl hn⟩
  refine wp_onBoot (fun _ => h0.sound) (fun hne hl => ?_) fun hne hl => ?_
  · rintro w₁ rfl
    have h1 : Before env hist (World.setRx ⟨.construct garbage, disk, log⟩ fun rx =>
        { rx with state := (World.loads o ⟨.construct garbage, disk, log⟩).2 }) := h0.setRx rfl
    exact ⟨h1.dropJournal.sound.1, fun w' hr => (h1.removed hr).sound⟩
  · rintro w₁ rfl
    have ho : o.fails .journalOpen = false := by
      by_contra hf
      rw [World.loads, if_pos (by simpa using hf)] at hl; cases hl
    obtain ⟨s, horig, -, hd, hs⟩ := hj.loads (w := ⟨.construct garbage, disk, log⟩) hne ho
    rw [hs]
    have h1 : Before env hist ((World.setRx ⟨.construct garbage, disk, log⟩ fun rx =>
        { rx with state := s }).setRx CfdpReceiver.activate) := (h0.setRx rfl).setRx rfl
    exact ⟨fun _ => keepsSound_checkCompletion h1 horig (hsafe s hd), fun _ => h1.sound⟩

/-! ## Runs -/

theorem FinalAcksSound.append (h : FinalAcksSound env hist)
    (h' : ∀ before w after, hist' = before ++ .passed w :: after →
      ∀ t, .sent (AckPdu.raw ⟨t, uint32Max⟩) ∈ w.log →
        Finished env (hist ++ (before ++ [.passed w])) t) :
    FinalAcksSound env (hist ++ hist') := by
  intro before w after he t ht
  rcases List.append_eq_append_iff.mp he with ⟨l, hb, ha⟩ | ⟨l, hb, ha⟩
  · rw [hb, List.append_assoc]
    exact h' l w after ha t ht
  · cases l with
    | nil =>
      rw [List.append_nil] at hb
      have := h' [] w after ha.symm t ht
      rwa [hb] at this
    | cons m l =>
      obtain ⟨rfl, ha'⟩ := List.cons.inj ha
      exact h before w l hb t ht

/-- The moments of a handler that keeps the final ACKs sound. -/
theorem FinalAcksSound.finish (h : FinalAcksSound env hist) {p : M Unit} {cut : Option Nat}
    {ws : List World} {n : Node} (hp : KeepsSound env hist p w)
    (hf : Node.finish (p w) cut = some (ws, n)) :
    FinalAcksSound env (hist ++ ws.map .passed) ∧
      (∀ t, .sent (AckPdu.raw ⟨t, uint32Max⟩) ∈ n.log → Finished env (hist ++ ws.map .passed) t) ∧
      ∀ x, n = .up x → x.rx.lastAckedId ≠ 0 →
        Finished env (hist ++ ws.map .passed) x.rx.lastAckedId := by
  have hby {x : World} {hist' : List Moment} (hx : .passed x ∈ hist') {t : UInt32}
      (hfin : FinishedBy env hist x t) : Finished env (hist ++ hist') t := by
    rcases hfin with hfin | ⟨m, hm, rfl, hver⟩
    · exact hfin.append _
    · exact finished_of_verified hm hx hver
  have hpassed (x : World) (hx : x ∈ ws) : LogSound env hist x :=
    (Node.finish_spec (I := fun _ => True) (J := LogSound env hist)
      (wp_mono hp (fun _ h => ⟨h, trivial⟩) (fun _ _ h => ⟨h.1, trivial⟩) fun _ _ _ => trivial) hf).2 x hx
  refine ⟨h.append fun before x after he t ht => ?_, fun t ht => ?_, fun x hn ha => ?_⟩
  · obtain ⟨l, l', hws, rfl, hl'⟩ := List.map_eq_append_iff.mp he
    obtain ⟨y, l'', rfl, hy, -⟩ := List.map_eq_cons_iff.mp hl'
    obtain rfl : y = x := by simpa using hy
    have hmem : y ∈ ws := by rw [hws]; simp
    exact hby (x := y) (by simp) (hpassed y hmem t ht)
  · cases cut with
    | none =>
      simp only [Node.finish] at hf
      split at hf
      · next hr =>
        cases hf
        exact hby (x := (p w).final) (by simp) ((hp.ok hr).1 t ht)
      · next hr =>
        cases hf
        exact ((hp.error hr).log t ht).append _
    | some k =>
      simp only [Node.finish, Option.map_eq_some_iff] at hf
      obtain ⟨y, hy, hyn⟩ := hf
      cases hyn
      refine hby (x := y) (List.mem_map.mpr ⟨y, ?_, rfl⟩) (hp.passed (List.mem_of_getElem? hy) t ht)
      obtain ⟨hlt, rfl⟩ := List.getElem?_eq_some_iff.mp hy
      rw [List.take_succ_eq_append_getElem hlt]
      exact List.mem_append_right _ (List.mem_singleton_self _)
  · subst hn
    cases cut with
    | none =>
      simp only [Node.finish] at hf
      split at hf
      · next hr =>
        cases hf
        exact hby (x := (p w).final) (by simp) ((hp.ok hr).2 ha)
      · cases hf
    | some k =>
      simp only [Node.finish, Option.map_eq_some_iff] at hf
      obtain ⟨y, -, hyn⟩ := hf
      cases hyn

theorem Origin.append {s : JournalState} (h : Origin env hist s) (hist' : List Moment) :
    Origin env (hist ++ hist') s := by
  obtain ⟨m, hm, hs⟩ := h
  exact ⟨m, List.mem_append_left _ hm, hs⟩

/-- The node after `hist`: all final ACKs and records have their origin in it. -/
def Node.SoundAfter (env : Env) (hist : List Moment) : Node → Prop
  | .up w => w.rx.Ok ∧ JournalAll JournalState.Sane w.disk ∧ JournalAll (Origin env hist) w.disk ∧
      (w.rx.transferActive = true → Origin env hist w.rx.state) ∧ Before env hist w
  | .down disk log => JournalAll JournalState.Sane disk ∧ JournalAll (Origin env hist) disk ∧
      ∀ t, .sent (AckPdu.raw ⟨t, uint32Max⟩) ∈ log → Finished env hist t

theorem Before.append (h : Before env hist w) (hist' : List Moment) :
    Before env (hist ++ hist') w :=
  ⟨fun t ht => (h.log t ht).append _, fun hn => (h.field hn).append _⟩

theorem JournalAll.origin_append {disk : Disk} (h : JournalAll (Origin env hist) disk)
    (hist' : List Moment) : JournalAll (Origin env (hist ++ hist')) disk :=
  h.mono fun _ hs => hs.append hist'

theorem fromMetadata_start (m : MetadataPdu) (s : JournalState) :
    FromMetadata env m (s.start env o m) :=
  ⟨rfl, rfl, rfl, ⟨o, JournalState.recvFilePath_start s m⟩⟩

/-- The records of the node are sane and come from a Metadata accepted in `hist`. -/
def Node.Traced (env : Env) (hist : List Moment) : Node → Prop
  | .up w => w.rx.Ok ∧ JournalAll JournalState.Sane w.disk ∧ JournalAll (Origin env hist) w.disk ∧
      (w.rx.transferActive = true → Origin env hist w.rx.state)
  | .down disk _ => JournalAll JournalState.Sane disk ∧ JournalAll (Origin env hist) disk

/-- A handler that keeps the final ACKs sound and the records traced. -/
theorem FinalAcksSound.step (h : FinalAcksSound env hist) {p : M Unit} {cut : Option Nat}
    {ws : List World} {n : Node} (hp : KeepsSound env hist p w)
    (ht : wp p (fun x => x.crashed.Traced env hist) (fun _ x => (Node.up x).Traced env hist)
      (fun _ x => x.crashed.Traced env hist) w)
    (hf : Node.finish (p w) cut = some (ws, n)) :
    FinalAcksSound env (hist ++ ws.map .passed) ∧ n.SoundAfter env (hist ++ ws.map .passed) := by
  obtain ⟨h1, h2, h3⟩ := h.finish hp hf
  have hnode : n.Traced env hist := (Node.finish_spec (J := fun _ => True)
    (wp_mono ht (fun _ hx => ⟨trivial, hx⟩) (fun _ _ hx => ⟨trivial, hx⟩) fun _ _ hx => hx) hf).1
  refine ⟨h1, ?_⟩
  cases n with
  | up x =>
    obtain ⟨g1, g2, g3, g4⟩ := hnode
    exact ⟨g1, g2, g3.origin_append _, fun hact => (g4 hact).append _, h2, h3 x rfl⟩
  | down disk log =>
    obtain ⟨g1, g2⟩ := hnode
    exact ⟨g1, g2.origin_append _, h2⟩

theorem Node.SoundAfter.step {n n' : Node} {a : Action} {ms : List Moment}
    (hsound : FinalAcksSound env hist) (h : n.SoundAfter env hist) (ha : FinalAckSafe n a)
    (hs : Node.step env n a = some (ms, n')) :
    FinalAcksSound env (hist ++ ms) ∧ n'.SoundAfter env (hist ++ ms) := by
  cases n with
  | up w =>
    obtain ⟨hok, hsane, hj, horig, hbef⟩ := h
    cases a with
    | recv raw o cut =>
      simp only [Node.step, Option.map_eq_some_iff] at hs
      obtain ⟨⟨ws, n⟩, hf, hr⟩ := hs
      cases hr
      have hacc : FinalAcksSound env (hist ++ w.acceptance raw) := by
        refine hsound.append fun before x after he => ?_
        have hmem : Moment.passed x ∈ w.acceptance raw := by rw [he]; simp
        unfold World.acceptance at hmem
        split at hmem
        · split at hmem <;> simp at hmem
        · cases hmem
      have hstart (m : MetadataPdu) (hd : decodePdu raw = some (.metadata m))
          (hm : w.rx.accepts m = true) :
          Origin env (hist ++ w.acceptance raw) (w.rx.state.start env o m) := by
        refine ⟨m, List.mem_append_right _ ?_, fromMetadata_start m _⟩
        simp [World.acceptance, hd, hm]
      have hact (h : w.rx.transferActive = true) : Origin env (hist ++ w.acceptance raw) w.rx.state :=
        (horig h).append _
      have hjournal := keepsJournal_onPduReceived env o raw (w := w)
        marked_origin (hj.origin_append (w.acceptance raw)) hstart
      have hjsane := keepsJournal_onPduReceived env o raw (w := w)
        marked_sane hsane fun m _ hm => JournalState.start_sane (CfdpReceiver.sane_of_accepts hm) _
      rw [← List.append_assoc]
      refine hacc.step (keepsSound_onPduReceived (hbef.append _) hok hact ha)
        (wp_mono (wp_and (wp_and hjsane hjournal) (wp_reply raw)) (fun _ hx => hx.1)
          (fun _ x hx => ⟨?_, hx.1.1, hx.1.2, ?_⟩) fun _ _ hx => hx.1) hf
      · rw [hx.2.1]; exact hok.reply _ raw
      · rw [hx.2.1]; exact CfdpReceiver.reply_record marked_origin hact hstart
    | crash =>
      cases hs
      rw [List.append_nil]
      exact ⟨hsound, hsane, hj, hbef.log⟩
    | boot => cases hs
  | down disk log =>
    obtain ⟨hsane, hj, hlog⟩ := h
    cases a with
    | recv => cases hs
    | crash => cases hs
    | boot garbage o cut =>
      simp only [Node.step, Option.map_eq_some_iff] at hs
      obtain ⟨⟨ws, n⟩, hf, hr⟩ := hs
      cases hr
      have hjournal := keepsJournal_onBoot env o (w := ⟨.construct garbage, disk, log⟩) hj
      have hjsane := keepsJournal_onBoot env o (w := ⟨.construct garbage, disk, log⟩) hsane
      refine hsound.step (keepsSound_onBoot garbage hlog hj ha)
        (wp_mono (wp_and (wp_and hjsane hjournal) replies_onBoot) (fun _ hx => hx.1)
          (fun _ x hx => ⟨?_, hx.1.1, hx.1.2, ?_⟩) fun _ _ hx => hx.1) hf
      · rw [hx.2.1]
        exact CfdpReceiver.Ok.replyBoot (w := ⟨.construct garbage, disk, log⟩) garbage hsane rfl _
      · rw [hx.2.1]
        exact CfdpReceiver.replyBoot_record (w := ⟨.construct garbage, disk, log⟩) hj rfl

theorem Node.Fresh.soundAfter {n : Node} (h : n.Fresh) : n.SoundAfter env [] := by
  cases n with
  | up w => exact h.elim
  | down disk log =>
    obtain ⟨hb, rfl⟩ := h
    exact ⟨fun c hc => (by rw [hb] at hc; cases hc), fun c hc => (by rw [hb] at hc; cases hc),
      fun t ht => (by cases ht)⟩

/-- **Final ACKs are sound** in every run whose steps are safe: whatever bytes arrive,
whatever calls fail, wherever the receiver crashes. -/
theorem run_finalAcksSound {n n' : Node} (hn : n.Fresh)
    (h : Node.Run env FinalAckSafe n hist n') : FinalAcksSound env hist := by
  refine (h.inv (I := fun hist n => FinalAcksSound env hist ∧ n.SoundAfter env hist) ⟨?_, hn.soundAfter⟩
    fun _ _ _ _ _ hi ha hs => Node.SoundAfter.step hi.1 hi.2 ha hs).1
  intro before w after he
  simp at he

/-- The run that delivers a file of one byte is safe. -/
theorem run_finalAcksSound_small : ∃ hist n', Node.Run sampleEnv FinalAckSafe unusedNode hist n' ∧
    FinalAcksSound sampleEnv hist ∧ .sent (AckPdu.raw ⟨1, uint32Max⟩) ∈ n'.log := by
  have hrun : ((sampleRun [powerOn, deliver ((Transfer.small [0x61]).metadataRaw sampleEnv.crc32),
      deliver ((Transfer.small [0x61]).packetRaw 0 0),
      deliver ((Transfer.small [0x61]).eofPdu sampleEnv.crc32)]).map
        fun r => decide (.sent (AckPdu.raw ⟨1, uint32Max⟩) ∈ r.2.log)) = some true := by
    decide +kernel
  obtain ⟨r, hr, hack⟩ := Option.map_eq_some_iff.mp hrun
  have hok : Node.Run sampleEnv FinalAckSafe unusedNode r.1 r.2 :=
    Machine.exec_run_of_allows hr (by decide +kernel)
  exact ⟨r.1, r.2, hok, run_finalAcksSound unusedNode_fresh hok, by simpa using hack⟩

/-- A file of one byte, sent as transaction `tid`. -/
def Transfer.oneByte (tid : UInt32) (b : UInt8) : Transfer := { Transfer.small [b] with tid }

/-- After transaction 1 has finished and transaction 2 has failed its checksum, a Metadata
of transaction 1 makes the receiver send the final ACK of transaction 2. -/
theorem not_run_finalAcksSound : ¬ ∀ env n n' hist, Node.Fresh n →
    Node.Run env (fun _ _ => True) n hist n' → FinalAcksSound env hist := by
  intro h
  have hrun : (sampleRun [powerOn, deliver ((Transfer.oneByte 1 0x61).metadataRaw sampleEnv.crc32),
      deliver ((Transfer.oneByte 1 0x61).packetRaw 0 0),
      deliver ((Transfer.oneByte 1 0x61).eofPdu sampleEnv.crc32),
      deliver ((Transfer.oneByte 2 0x63).metadataRaw sampleEnv.crc32),
      deliver ((Transfer.oneByte 2 0x62).packetRaw 0 0),
      deliver ((Transfer.oneByte 2 0x63).eofPdu sampleEnv.crc32),
      deliver ((Transfer.oneByte 1 0x61).metadataRaw sampleEnv.crc32)]).any (fun r =>
        (r.1.getLast?.any fun m => m.world?.any fun v =>
            decide (.sent (AckPdu.raw ⟨2, uint32Max⟩) ∈ v.log)) &&
          -- the file of transaction 2 never has its checksum
          r.1.all fun m => m.world?.all fun v => !(v.rx.state.transactionId == 2 &&
            (v.rx.state.totalChunks == 0 || v.rx.state.isDone 0) &&
            (v.disk.files v.rx.state.recvFilePath).any fun content =>
              Crc.crc32File sampleEnv.crc32 content == v.rx.state.checksumExpected)) = true := by
    decide +kernel
  simp only [Option.any_eq_true, Bool.and_eq_true, decide_eq_true_eq, Moment.world?_eq_some,
    Prod.exists] at hrun
  obtain ⟨hist, n', hr, ⟨m, hlast, v, rfl, hack⟩, hnever⟩ := hrun
  have hsound := h sampleEnv unusedNode n' hist unusedNode_fresh
    (Machine.exec_run hr fun _ _ _ _ _ => trivial)
  obtain ⟨before, rfl⟩ := List.getLast?_eq_some_iff.mp hlast
  obtain ⟨l, m, after, hl, ht, x, hx, hver⟩ := hsound before v [] rfl 2 hack
  have hmem : Moment.passed x ∈ before ++ [Moment.passed v] := by
    rw [hl]; exact List.mem_append_right _ (List.mem_cons_of_mem _ hx)
  obtain ⟨content, hfile, hcrc⟩ := hver.file
  have hx' := List.all_eq_true.mp hnever _ hmem
  rw [← hver.record.checksum] at hcrc
  simp only [Moment.world?, Option.all_some, hver.record.tid, ht, hfile, hcrc, Option.any_some, beq_self_eq_true,
    Bool.true_and, Bool.and_true, Bool.not_eq_true', Bool.or_eq_false_iff, beq_eq_false_iff_ne] at hx'
  have hdone := hver.done 0 (hver.record.totalChunks ▸ UInt32.lt_iff_toNat_lt.mpr (toNat_pos hx'.1))
  rw [hx'.2] at hdone; cases hdone

end

end Cfdp
