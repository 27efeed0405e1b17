import Cfdp.Durability
import Cfdp.Files

/-!
# A chunk ACK and the journal

`flush_chunk` ignores what `mark_chunk_done` returns and `handle_metadata` what `create`
returns, so memory and journal can drift apart, and the ACK follows memory. `run_journaled`
says that these two results are all that matters: if both calls succeed, every chunk ACK
finds its chunk done in the journal, whatever else fails. `Tracks` is the invariant: the
journal is the record in memory but for the Eof flag.
-/

namespace Cfdp

open Crash Prog Machine

/-- If the last event is a chunk ACK, the journal has the transaction and the chunk. -/
def Journaled (disk : Disk) (log : List Event) : Prop :=
  ∀ t ci, ci ≠ uint32Max → log.getLast? = some (.sent (AckPdu.raw ⟨t, ci⟩)) →
    ∃ s, JournalState.decode disk.stateBin = some s ∧ s.transactionId = t ∧ s.isDone ci = true

/-- The record with the Eof flag as it may be in the journal. -/
def JournalState.withEof (s : JournalState) (eofReceived : Bool) : JournalState :=
  { s with eofReceived }

/-- The journal of an active transfer is its record but for the Eof flag. -/
def Tracks (w : World) : Prop :=
  w.rx.transferActive = true → ∃ e, w.disk.stateBin = some (w.rx.state.withEof e).encode

section

variable {w w' : World} {o : Oracle} {env : Env} {disk disk' : Disk} {log : List Event}
  {s : JournalState} {e : Bool} {ci : UInt32}

/-! ## The record and its Eof flag -/

theorem JournalState.Sane.withEof (h : s.Sane) (e : Bool) : (s.withEof e).Sane :=
  ⟨h.packetSize, h.chunkSize, h.totalChunks, h.flags⟩

theorem Tracks.decode (h : Tracks w) (ha : w.rx.transferActive = true) (hs : w.rx.state.Sane) :
    ∃ e, JournalState.decode w.disk.stateBin = some (w.rx.state.withEof e) := by
  obtain ⟨e, he⟩ := h ha
  exact ⟨e, by rw [he, JournalState.decode_encode _ (hs.withEof e).flags_lt]⟩

theorem Tracks.congr (h : Tracks w) (hb : w'.disk.stateBin = w.disk.stateBin)
    (hs : w'.rx.state = w.rx.state) (ha : w'.rx.transferActive = w.rx.transferActive) : Tracks w' := by
  intro ha'
  rw [hb, hs]
  exact h (ha ▸ ha')

theorem tracks_idle (ha : w.rx.transferActive = false) : Tracks w := by
  intro ha'
  rw [ha] at ha'
  cases ha'

/-! ## Moments -/

theorem Journaled.congr (h : Journaled disk log) (hb : disk'.stateBin = disk.stateBin) :
    Journaled disk' log := by
  unfold Journaled
  rw [hb]
  exact h

/-- Right after an update the last event is no ACK. -/
theorem journaled_update (disk : Disk) (log : List Event) (u : JournalUpdate) :
    Journaled disk (log ++ [.journal u]) := by
  intro t ci _ hlast
  rw [List.getLast?_concat] at hlast
  cases hlast

theorem journaled_commit (u : JournalUpdate) : Journaled (w.commit u s).disk (w.commit u s).log :=
  journaled_update _ _ u

theorem journaled_dropJournal : Journaled w.dropJournal.disk w.dropJournal.log :=
  journaled_update _ _ .remove

/-- Sending an ACK of a chunk that the journal has. -/
theorem journaled_send {pdu : Bytes} (h : ∀ t ci, ci ≠ uint32Max → pdu = AckPdu.raw ⟨t, ci⟩ →
    ∃ s, JournalState.decode w.disk.stateBin = some s ∧ s.transactionId = t ∧ s.isDone ci = true) :
    Journaled (w.send pdu).disk (w.send pdu).log := by
  intro t ci hci hlast
  rw [World.send_log, List.getLast?_concat] at hlast
  cases hlast
  exact h t ci hci rfl

theorem journaled_sendOther {pdu : Bytes} (hp : ¬ IsAck pdu) :
    Journaled (w.send pdu).disk (w.send pdu).log :=
  journaled_send fun _ _ _ he => absurd (he ▸ isAck_raw _) hp

theorem journaled_sendFinal (t : UInt32) : Journaled (w.send (AckPdu.raw ⟨t, uint32Max⟩)).disk
    (w.send (AckPdu.raw ⟨t, uint32Max⟩)).log :=
  journaled_send fun _ _ hci he => absurd (congrArg AckPdu.chunkIndex (AckPdu.raw_inj.mp he)).symm hci

theorem Journaled.removed (h : Journaled w.disk w.log) (hr : Removed o w w') :
    Journaled w'.disk w'.log := by
  rcases hr with ⟨rfl, -⟩ | ⟨rfl, -⟩
  · exact h
  · exact journaled_dropJournal

/-! ## Handlers, when chunks reach the journal -/

/-- At every moment an ACK is journaled; at the end the journal tracks memory. -/
abbrev KeepsJournaled (p : M Unit) (w : World) : Prop :=
  wp p (fun x => Journaled x.disk x.log) (fun _ x => Journaled x.disk x.log ∧ Tracks x)
    (fun _ x => Journaled x.disk x.log) w

theorem keepsJournaled_checkCompletion (h : Journaled w.disk w.log) (ht : Tracks w) :
    KeepsJournaled (checkCompletion env o) w := by
  -- the transfer is over before the journal is removed
  have hend (w₁ : World) (h₁ : Journaled w₁.disk w₁.log) (w' : World)
      (hr : Removed o (w₁.setRx CfdpReceiver.deactivate) w') : Journaled w'.disk w'.log ∧
        Tracks w' := by
    refine ⟨Journaled.removed (w := w₁.setRx CfdpReceiver.deactivate) h₁ hr, tracks_idle ?_⟩
    rw [hr.alike.1]
    rfl
  refine wp_checkCompletion (fun _ => ⟨h, ht⟩) (fun pdu hp => ?_) (fun _ _ => ?_) fun _ _ => ?_
  · have h1 := journaled_sendOther (w := w) (CfdpReceiver.completion_not_ack hp)
    exact ⟨h1, h1, ht⟩
  · exact ⟨fun _ => journaled_dropJournal, hend w h⟩
  · have h1 : Journaled w.finalAck.disk w.finalAck.log := journaled_sendFinal (w := w.setRx _) _
    exact ⟨h1, fun _ => journaled_dropJournal, hend _ h1⟩

theorem keepsJournaled_flushChunk (h : Journaled w.disk w.log) (ht : Tracks w) (ho : o.Updates)
    (ha : w.rx.transferActive = true) (hs : w.rx.state.Sane)
    (hci : ci.toNat < w.rx.state.totalChunks.toNat) : KeepsJournaled (flushChunk env o ci) w := by
  obtain ⟨e, hd⟩ := ht.decode ha hs
  have hlen : ci.toNat < w.rx.state.chunkDone.length := by rw [hs.flags]; exact hci
  have hmark : markIn ci (w.rx.state.withEof e) = some ((w.rx.state.withEof e).markDone ci) := by
    rw [markIn, if_neg]
    show ¬ ci.toNat ≥ w.rx.state.chunkDone.length
    omega
  refine wp_flushChunk (fun _ _ => h) (fun _ _ _ _ => h) fun base _ => ?_
  refine ⟨fun _ => h, fun s s' _ _ => journaled_commit _, fun w' hu => ?_⟩
  -- the update succeeds
  obtain rfl : w' = (w.wroteChunk ci base).commit (.chunkDone ci)
      ((w.rx.state.withEof e).markDone ci) := by
    rcases hu with ⟨t, rfl, hno⟩ | ⟨s, s', hs', hm, rfl⟩
    · have := hno ho _ hd
      rw [hmark] at this
      cases this
    · have hs'' : s = w.rx.state.withEof e := Option.some.inj (hs'.symm.trans hd)
      rw [hs'', hmark] at hm
      cases hm
      rfl
  generalize hw₁ : (w.wroteChunk ci base).commit (.chunkDone ci) ((w.rx.state.withEof e).markDone ci) = w₁
  have hbin : w₁.disk.stateBin = some ((w.rx.state.markDone ci).withEof e).encode := by rw [← hw₁]; rfl
  have hrx : w₁.rx = { w.rx with state := w.rx.state.markDone ci } := by rw [← hw₁]; rfl
  have hdone : (w.rx.state.markDone ci).isDone ci = true := by
    rw [JournalState.isDone_markDone _ _ _ hlen, decide_eq_true rfl, Bool.true_or]
  have hsend : Journaled (w₁.send (AckPdu.raw ⟨w₁.rx.state.transactionId, ci⟩)).disk
      (w₁.send (AckPdu.raw ⟨w₁.rx.state.transactionId, ci⟩)).log := by
    refine journaled_send fun t cj _ he => ?_
    obtain ⟨rfl, rfl⟩ := AckPdu.mk.inj (AckPdu.raw_inj.mp he)
    have hd₁ : JournalState.decode w₁.disk.stateBin = some ((w.rx.state.markDone ci).withEof e) := by
      rw [hbin, JournalState.decode_encode _ ((hs.markDone ci).withEof e).flags_lt]
    refine ⟨_, hd₁, ?_, hdone⟩
    rw [hrx]
    rfl
  have htr : Tracks
      ((w₁.send (AckPdu.raw ⟨w₁.rx.state.transactionId, ci⟩)).setRx CfdpReceiver.clearList) := by
    intro _
    refine ⟨e, ?_⟩
    show w₁.disk.stateBin = some (w₁.rx.state.withEof e).encode
    rw [hbin, hrx]
  exact ⟨hsend, fun _ => keepsJournaled_checkCompletion hsend htr, fun _ => ⟨hsend, htr⟩⟩

/-- The results the receiver ignores are good: a Metadata that is accepted gets its journal, a
chunk that is flushed its mark. -/
def Node.Journals : Node → Action → Prop
  | .up w, .recv raw o _ =>
      (∀ m, decodePdu raw = some (.metadata m) → w.rx.accepts m = true → o.Writes) ∧
        ∀ d, w.Flushes raw d → o.Updates
  | _, _ => True

theorem keepsJournaled_metadata {m : MetadataPdu} (h : Journaled w.disk w.log) (ht : Tracks w)
    (ho : w.rx.accepts m = true → o.Writes) : KeepsJournaled (handleMetadata env o m) w := by
  refine wp_handleMetadata (fun _ _ => ⟨h, ht⟩) (fun _ => ?_) fun hacc => ?_
  · have h1 := journaled_sendFinal (w := w) w.rx.state.transactionId
    exact ⟨h1, h1, ht⟩
  · refine ⟨fun _ => journaled_dropJournal, ?_⟩
    rintro w₁ hr w₂ rfl
    have h1 := h.removed hr
    refine ⟨fun _ => h1, journaled_commit _, fun w₃ hc => ?_⟩
    rcases hc with ⟨t, -, hno⟩ | rfl
    · exact absurd (ho hacc) hno
    · exact ⟨journaled_commit _, fun _ => ⟨_, rfl⟩⟩

theorem keepsJournaled_data {d : DataPdu} (h : Journaled w.disk w.log) (ht : Tracks w) (hok : w.rx.Ok)
    (ho : w.rx.Completes d → o.Updates) : KeepsJournaled (handleData env o d) w := by
  refine wp_handleData (fun _ => ⟨h, ht⟩) (fun hacc hdone => ?_) fun hacc hopen => ?_
  · -- the chunk is acknowledged again
    have ha := CfdpReceiver.acceptsData_iff.mp hacc
    have hs := hok.sane ha.active
    obtain ⟨e, hd⟩ := ht.decode ha.active hs
    rintro w₁ rfl
    have ht1 : Tracks (w.setRx (CfdpReceiver.see d.chunkIndex)) :=
      ht.congr rfl (CfdpReceiver.see_state) (CfdpReceiver.see_transferActive)
    refine ⟨fun _ => ?_, fun _ => ⟨h, ht1⟩⟩
    have h1 : Journaled ((w.setRx (CfdpReceiver.see d.chunkIndex)).send
        (AckPdu.raw ⟨w.rx.state.transactionId, d.chunkIndex⟩)).disk ((w.setRx (CfdpReceiver.see d.chunkIndex)).send
          (AckPdu.raw ⟨w.rx.state.transactionId, d.chunkIndex⟩)).log := by
      refine journaled_send fun t ci _ he => ?_
      obtain ⟨rfl, rfl⟩ := AckPdu.mk.inj (AckPdu.raw_inj.mp he)
      exact ⟨_, hd, rfl, hdone⟩
    exact ⟨h1, h1, ht1⟩
  · have ha := CfdpReceiver.acceptsData_iff.mp hacc
    refine ⟨fun pdu hp => journaled_sendOther (w := w.setRx _) (CfdpReceiver.leaveNak_not_ack hp), ?_⟩
    rintro w₁ rfl
    generalize hw₁ : (w.sendOption (w.rx.leaveNak d.chunkIndex)).setRx (CfdpReceiver.take d) = w₁
    have hrx : w₁.rx = w.rx.take d := by rw [← hw₁]; simp
    have hdisk : w₁.disk = w.disk := by rw [← hw₁]; simp
    have h1 : Journaled w₁.disk w₁.log := by
      rw [← hw₁]
      exact CfdpReceiver.sendOption_leaveNak (P := fun v => Journaled v.disk v.log) h
        fun _ hp => journaled_sendOther hp
    have ht1 : Tracks w₁ := by
      refine ht.congr (by rw [hdisk]) ?_ ?_
      · rw [hrx, CfdpReceiver.take_state]
      · rw [hrx, CfdpReceiver.take_transferActive]
    refine ⟨fun hc => keepsJournaled_flushChunk h1 ht1 (ho ⟨hacc, hopen, by rw [← hrx]; exact hc⟩) ?_ ?_ ?_,
      fun _ => ⟨h1, ht1⟩⟩
    · rw [hrx, CfdpReceiver.take_transferActive]
      exact ha.active
    · rw [hrx, CfdpReceiver.take_state]
      exact hok.sane ha.active
    · rw [hrx, CfdpReceiver.take_state]
      exact ha.chunk

/-- The Eof flag may fail to reach the journal. -/
theorem keepsJournaled_eof {eof : EofPdu} (h : Journaled w.disk w.log) (ht : Tracks w)
    (hok : w.rx.Ok) :
    KeepsJournaled (handleEof env o eof) w := by
  refine wp_handleEof (fun _ => ⟨h, ht⟩)
    (fun _ _ => keepsJournaled_checkCompletion h ht) fun hacc _ => ?_
  have ha := CfdpReceiver.active_of_acceptsEof hacc
  obtain ⟨e, hd⟩ := ht.decode ha (hok.sane ha)
  refine ⟨fun _ => h, fun s _ => journaled_commit _, fun w' hu => ?_⟩
  rcases hu with ⟨t, rfl, -⟩ | ⟨s, s', hs, hm, rfl⟩
  · exact keepsJournaled_checkCompletion h fun ha' => ht ha'
  · obtain rfl : s = w.rx.state.withEof e := Option.some.inj (hs.symm.trans hd)
    cases hm
    exact keepsJournaled_checkCompletion (journaled_commit _) fun _ => ⟨true, rfl⟩

theorem keepsJournaled_onPduReceived {raw : Bytes} (h : Journaled w.disk w.log) (ht : Tracks w)
    (hok : w.rx.Ok) {cut : Option Nat} (ho : (Node.up w).Journals (.recv raw o cut)) :
    KeepsJournaled (onPduReceived env o raw) w := by
  unfold onPduReceived
  cases hd : decodePdu raw with
  | none => exact (wp_pure ()).mpr ⟨h, ht⟩
  | some pdu =>
    cases pdu with
    | metadata m => exact keepsJournaled_metadata h ht (ho.1 m hd)
    | data d => exact keepsJournaled_data h ht hok fun hc => ho.2 d ⟨hd, hc⟩
    | eof eof => exact keepsJournaled_eof h ht hok
    | resumeQuery query =>
      have h1 := journaled_sendOther (w := w)
        (not_isAck_info ⟨query.transactionId, firstMissingChunk w.rx query.transactionId⟩)
      exact wp_handleResumeQuery.mpr ⟨h1, h1, ht⟩

/-- A boot loads the journal, or no transfer is active. -/
theorem keepsJournaled_onBoot (h : Journaled disk log) (hj : JournalAll JournalState.Sane disk)
    (garbage : JournalState) : KeepsJournaled (onBoot env o) ⟨.construct garbage, disk, log⟩ := by
  refine wp_onBoot (fun hn => ⟨h, tracks_idle rfl⟩) (fun hne _ => ?_) fun hne hl => ?_
  · rintro w₁ rfl
    refine ⟨journaled_dropJournal, fun w' hr => ⟨?_, tracks_idle (by rw [hr.alike.1]; rfl)⟩⟩
    refine Journaled.removed ?_ hr
    exact h
  · have ho : o.fails .journalOpen = false := by
      by_contra hf
      simp only [World.loads, Bool.not_eq_false] at hl hf
      rw [if_pos hf] at hl
      cases hl
    obtain ⟨s, -, hb, -, hs⟩ := hj.loads (w := ⟨.construct garbage, disk, log⟩) hne ho
    rw [hs]
    rintro w₁ rfl
    have ht : Tracks ((World.setRx ⟨.construct garbage, disk, log⟩ fun rx => { rx with state := s }).setRx
        CfdpReceiver.activate) := fun _ => ⟨s.eofReceived, hb⟩
    exact ⟨fun _ => keepsJournaled_checkCompletion h ht, fun _ => ⟨h, ht⟩⟩

/-! ## Every run -/

def Node.Journaled : Node → Prop
  | .up w => Cfdp.Journaled w.disk w.log ∧ Tracks w
  | .down disk log => Cfdp.Journaled disk log

theorem Node.Journaled.step {n n' : Node} {a : Action} {ms : List Moment} (h : n.Journaled)
    (hok : n.Ok) (ha : n.Journals a) (hs : Node.step env n a = some (ms, n')) :
    n'.Journaled ∧ ∀ w, .passed w ∈ ms → Cfdp.Journaled w.disk w.log := by
  refine @Node.inv_step env Node.Journaled (fun w => Cfdp.Journaled w.disk w.log)
    (fun n a => n.Journals a ∧ n.Ok) n n' a ms (fun w raw o cut hw ha => ?_) (fun w hw => hw.1)
    (fun disk log garbage o cut hd ha => ?_) h ⟨ha, hok⟩ hs
  · exact wp_mono (keepsJournaled_onPduReceived hw.1 hw.2 ha.2.1 ha.1) (fun _ hx => ⟨hx, hx⟩)
      (fun _ _ hx => ⟨hx.1, hx⟩) fun _ _ hx => hx
  · exact wp_mono (keepsJournaled_onBoot hd ha.2 garbage) (fun _ hx => ⟨hx, hx⟩)
      (fun _ _ hx => ⟨hx.1, hx⟩) fun _ _ hx => hx

theorem Node.Fresh.journaled {n : Node} (h : n.Fresh) : n.Journaled := by
  cases n with
  | up w => exact h.elim
  | down disk log =>
    obtain ⟨-, rfl⟩ := h
    intro t ci _ hlast
    cases hlast

/-- **A chunk ACK implies a durable journal**, at the moment it is sent, in every run in which the
journal is created for each Metadata accepted and marked for each chunk flushed: any bytes may
arrive, every other call may fail, and crashes may strike anywhere. -/
theorem run_journaled {n₀ n : Node} {hist : List Moment} (hn : n₀.Fresh)
    (h : Node.Run env Node.Journals n₀ hist n) (w : World) (hw : .passed w ∈ hist) (t ci : UInt32)
    (hci : ci ≠ uint32Max) (hack : w.log.getLast? = some (.sent (AckPdu.raw ⟨t, ci⟩))) :
    ∃ s, JournalState.decode w.disk.stateBin = some s ∧ s.transactionId = t ∧ s.isDone ci = true := by
  have hall := h.inv_moments (I := fun n => n.Journaled ∧ n.Ok)
    (J := fun m => ∀ w, m = .passed w → Cfdp.Journaled w.disk w.log) ⟨hn.journaled, hn.ok⟩ ?_
  · exact hall.2 _ hw w rfl t ci hci hack
  · rintro n a ms n' ⟨hj, hok⟩ ha hs
    obtain ⟨h1, h2⟩ := hj.step hok ha hs
    exact ⟨⟨h1, Node.ok_step hok hs⟩, fun m hm w he => h2 w (he ▸ hm)⟩

/-- The ACK of a chunk of a file of two bytes. -/
theorem run_journaled_small : ∃ (hist : List Moment) (n : Node) (w : World) (s : JournalState),
    Node.Run sampleEnv Node.Journals unusedNode hist n ∧ .passed w ∈ hist ∧
      w.log.getLast? = some (.sent (AckPdu.raw ⟨1, 0⟩)) ∧
        JournalState.decode w.disk.stateBin = some s ∧ s.transactionId = 1 ∧ s.isDone 0 = true := by
  have hrun : (sampleRun [powerOn, deliver ((Transfer.small [0x61, 0x62]).metadataRaw sampleEnv.crc32),
      deliver ((Transfer.small [0x61, 0x62]).packetRaw 0 0)]).any (fun r => r.1.any fun m =>
        m.world?.any fun w => decide (w.log.getLast? = some (.sent (AckPdu.raw ⟨1, 0⟩)))) = true := by
    decide +kernel
  simp only [Option.any_eq_true, List.any_eq_true, Moment.world?_eq_some, decide_eq_true_eq,
    Prod.exists] at hrun
  obtain ⟨hist, n, hr, m, hm, w, rfl, hack⟩ := hrun
  have hok : Node.Run sampleEnv Node.Journals unusedNode hist n := by
    refine Machine.exec_run hr fun a ha n _ _ => ?_
    have hu : noFaults.Updates := smooth_noFaults.journal.updates
    simp only [List.mem_cons, List.not_mem_nil, or_false] at ha
    rcases ha with rfl | rfl | rfl <;> cases n <;>
      first | exact ⟨fun _ _ _ => hu.toWrites, fun _ _ => hu⟩ | trivial
  obtain ⟨s, hs⟩ := run_journaled unusedNode_fresh hok w hm 1 0 (by decide) hack
  exact ⟨hist, n, w, s, hok, hm, hack, hs⟩

/-- Only journal updates fail: not the removal of the journal, and no call on a received file. -/
def OnlyUpdatesFail (_ : Node) (a : Action) : Prop :=
  a.Within (fun _ => True) fun o => ∀ c, c.onJournal = false ∨ c = .journalRemove → o.fails c = false

/-- The temporary file of the journal cannot be opened. -/
def noTmp : Oracle := ⟨fun c => decide (c = .tmpOpen), 0, [], true⟩

/-- The journal is not created, and the first chunk is acknowledged. -/
theorem not_run_journaled : ¬ ∀ (env : Env) (n₀ n : Node) (hist : List Moment), n₀.Fresh →
    Node.Run env OnlyUpdatesFail n₀ hist n → ∀ w, .passed w ∈ hist → ∀ t ci, ci ≠ uint32Max →
      w.log.getLast? = some (.sent (AckPdu.raw ⟨t, ci⟩)) →
        ∃ s, JournalState.decode w.disk.stateBin = some s ∧ s.transactionId = t ∧
          s.isDone ci = true := by
  intro h
  have hrun : (sampleRun [powerOn, .recv ((Transfer.small [0x61, 0x62]).metadataRaw sampleEnv.crc32) noTmp none,
      deliver ((Transfer.small [0x61, 0x62]).packetRaw 0 0)]).any (fun r => r.1.any fun m =>
        m.world?.any fun w => decide (w.log.getLast? = some (.sent (AckPdu.raw ⟨1, 0⟩))) &&
          w.disk.stateBin.isNone) = true := by
    decide +kernel
  simp only [Option.any_eq_true, List.any_eq_true, Moment.world?_eq_some, Bool.and_eq_true, decide_eq_true_eq,
    Option.isNone_iff_eq_none, Prod.exists] at hrun
  obtain ⟨hist, n, hr, m, hm, w, rfl, hack, hnone⟩ := hrun
  have hok : Node.Run sampleEnv OnlyUpdatesFail unusedNode hist n := by
    have htmp : ∀ c : FsCall, c.onJournal = false ∨ c = .journalRemove → noTmp.fails c = false := by
      intro c hc
      rcases hc with hc | rfl
      · cases c <;> first | rfl | cases hc
      · rfl
    refine Machine.exec_run hr fun a ha n _ _ => ?_
    simp only [List.mem_cons, List.not_mem_nil, or_false] at ha
    rcases ha with rfl | rfl | rfl
    · exact fun c _ => smooth_noFaults c
    · exact ⟨trivial, htmp⟩
    · exact ⟨trivial, fun c _ => smooth_noFaults c⟩
  obtain ⟨s, hs, -⟩ := h sampleEnv unusedNode n hist unusedNode_fresh hok w hm 1 0 (by decide) hack
  rw [hnone, JournalState.decode_none] at hs
  cases hs

end

end Cfdp
