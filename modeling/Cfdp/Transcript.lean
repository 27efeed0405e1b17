import Cfdp.Durability
import Cfdp.Missing
import Cfdp.Naks

/-!
# The journal explains what is transmitted

Between two restarts the receiver answers from memory, but all that it says could be read off
the journal: at the moment a PDU is transmitted, the journal allows it (`Allows`), whatever
bytes have arrived and wherever crashes have struck, as long as calls on the journal succeed.
So what the sender is told depends on the journal alone; a ResumeInfo never goes back while the
transfer is the same, and after a final ACK there is no chunk that could still be written.
-/

namespace Cfdp

open Crash Prog Machine

/-- The chunk at which transaction `t` resumes by the journal `j`. -/
def resumePoint (j : Option JournalState) (t : UInt32) : UInt32 :=
  match j with
  | none => 0
  | some s =>
    if s.transactionId != t then 0
    else
      match s.computeMissingChunks with
      | [] => uint32Max
      | cr :: _ => cr.firstChunk

/-- The journal `j` allows to transmit `pdu`: a NAK for a chunk that is not done, the ACK of one
that is, a final ACK when all are or when there is no journal, and the point to resume at. -/
inductive Allows (j : Option JournalState) : Bytes → Prop where
  | nak {s : JournalState} {nak : NakPdu} {ci : UInt32} (hs : j = some s)
      (ht : nak.transactionId = s.transactionId) (hne : nak.missingPackets ≠ [])
      (hr : ∀ r ∈ nak.missingPackets, r.chunkIndex = ci) (hlt : ci < s.totalChunks)
      (hopen : s.isDone ci = false) : Allows j (serializeNak nak)
  | ack {s : JournalState} {ci : UInt32} (hs : j = some s) (hlt : ci < s.totalChunks)
      (hdone : s.isDone ci = true) : Allows j (AckPdu.raw ⟨s.transactionId, ci⟩)
  | final {s : JournalState} (hs : j = some s) (hmiss : s.computeMissingChunks = [])
      (heof : s.eofReceived = true) : Allows j (AckPdu.raw ⟨s.transactionId, uint32Max⟩)
  | again (hs : j = none) (t : UInt32) : Allows j (AckPdu.raw ⟨t, uint32Max⟩)
  | info (t : UInt32) : Allows j (ResumeInfoPdu.raw ⟨t, resumePoint j t⟩)

/-- The journal as the log tells it. -/
def journalOf (log : List Event) : Option JournalState := applyAll (updatesOf log) none

/-- Every PDU of the log was allowed when it was transmitted. -/
def Explained (log : List Event) : Prop :=
  ∀ l₁ pdu l₂, log = l₁ ++ .sent pdu :: l₂ → Allows (journalOf l₁) pdu

/-- The journal on disk is that of the log, and the log is explained. -/
structure Replays (disk : Disk) (log : List Event) : Prop where
  replayed : JournalState.decode disk.stateBin = journalOf log
  explained : Explained log

section

variable {env : Env} {o : Oracle} {w w' : World} {disk disk' : Disk} {log : List Event} {pdu : Bytes}
  {s s' : JournalState} {u : JournalUpdate} {ci : UInt32}

theorem journalOf_append_journal (log : List Event) (u : JournalUpdate) :
    journalOf (log ++ [.journal u]) = u.apply (journalOf log) := by
  unfold journalOf
  rw [updatesOf_append, applyAll_append]
  rfl

theorem journalOf_append_sent (log : List Event) (pdu : Bytes) :
    journalOf (log ++ [.sent pdu]) = journalOf log := by
  unfold journalOf
  rw [updatesOf_append, applyAll_append]
  rfl

theorem Explained.snoc {e : Event} (h : Explained log)
    (he : ∀ pdu, e = .sent pdu → Allows (journalOf log) pdu) : Explained (log ++ [e]) := by
  intro l₁ pdu l₂ heq
  rcases List.eq_nil_or_concat l₂ with rfl | ⟨l₂', e', rfl⟩
  · obtain ⟨rfl, hlast⟩ := List.append_inj' heq rfl
    cases hlast
    exact he pdu rfl
  · rw [List.concat_eq_append, ← List.cons_append, ← List.append_assoc] at heq
    obtain ⟨rfl, -⟩ := List.append_inj' heq rfl
    exact h l₁ pdu l₂' rfl

theorem Replays.congr (h : Replays disk log) (hb : disk'.stateBin = disk.stateBin) : Replays disk' log :=
  ⟨by rw [hb]; exact h.replayed, h.explained⟩

theorem Replays.send (h : Replays w.disk w.log)
    (ha : Allows (JournalState.decode w.disk.stateBin) pdu) :
    Replays (w.send pdu).disk (w.send pdu).log := by
  rw [h.replayed] at ha
  rw [World.send_log]
  refine ⟨?_, h.explained.snoc fun p hp => ?_⟩
  · rw [journalOf_append_sent]
    exact h.replayed
  · cases hp
    exact ha

theorem Replays.commit (h : Replays w.disk w.log)
    (hu : u.apply (JournalState.decode w.disk.stateBin) = some s') (hlen : s'.chunkDone.length < 2 ^ 32) :
    Replays (w.commit u s').disk (w.commit u s').log := by
  rw [World.commit_log]
  refine ⟨?_, h.explained.snoc fun p hp => by cases hp⟩
  rw [journalOf_append_journal, ← h.replayed, hu, World.commit_stateBin]
  exact JournalState.decode_encode s' hlen

theorem Replays.dropJournal (h : Replays w.disk w.log) : Replays w.dropJournal.disk w.dropJournal.log := by
  rw [World.dropJournal_log]
  refine ⟨?_, h.explained.snoc fun p hp => by cases hp⟩
  rw [journalOf_append_journal]
  rfl

theorem Replays.removed (h : Replays w.disk w.log) (hr : Removed o w w') : Replays w'.disk w'.log := by
  rcases hr with ⟨rfl, -⟩ | ⟨rfl, -⟩
  · exact h
  · exact h.dropJournal

/-- An active receiver answers a query by its record, which is the journal. -/
theorem firstMissingChunk_eq (hb : Agrees w) (hs : w.rx.transferActive = true → w.rx.state.Sane)
    (t : UInt32) : firstMissingChunk w.rx t = resumePoint (JournalState.decode w.disk.stateBin) t := by
  unfold firstMissingChunk
  cases ha : w.rx.transferActive with
  | true =>
    rw [hb.decode ha (hs ha)]
    rfl
  | false =>
    have hnone : w.disk.stateBin = none := by
      rw [hb, ha]
      rfl
    rw [hnone]
    rfl

end

/-! ## NAKs -/

namespace CfdpReceiver

variable {rx : CfdpReceiver} {j : Option JournalState} {pdu : Bytes} {ci : UInt32}

theorem allows_packetNak (hj : j = some rx.state) (hb : rx.InProgress) (hp : rx.packetNak = some pdu) :
    Allows j pdu := by
  obtain ⟨rfl, hr⟩ := packetNak_eq hp
  refine .nak hj rfl (fun hn => hr (List.map_eq_nil_iff.mp hn)) ?_
    (UInt32.lt_iff_toNat_lt.mpr hb.lt) hb.open_
  intro r hm
  obtain ⟨q, -, rfl⟩ := List.mem_map.mp hm
  rfl

theorem allows_completion (hj : j = some rx.state) (hb : rx.unfinished = true → rx.InProgress)
    (hc : rx.completion = .nak pdu) : Allows j pdu := by
  rcases rx.completionCase with ⟨-, hc'⟩ | ⟨-, hu, hc'⟩ | ⟨-, -, cr, hs, hc'⟩ | ⟨-, -, -, -, hc'⟩ |
    ⟨-, -, -, hc'⟩
  · rw [hc'] at hc
    cases hc
  · rw [hc'] at hc
    cases hp : rx.packetNak with
    | none =>
      rw [hp] at hc
      cases hc
    | some nak =>
      rw [hp] at hc
      cases hc
      exact allows_packetNak hj (hb hu) hp
  · rw [hc'] at hc
    cases hc
    obtain ⟨hlt, hopen⟩ := JournalState.open_of_mem_missing (List.mem_of_find?_eq_some hs)
    refine .nak hj rfl (List.cons_ne_nil _ _) (fun r hr => ?_) hlt hopen
    rw [List.mem_singleton.mp hr]
  · rw [hc'] at hc
    cases hc
  · rw [hc'] at hc
    cases hc

theorem allows_leaveNak (hj : j = some rx.state) (h : rx.Steady) (ha : rx.transferActive = true)
    (hl : rx.leaveNak ci = some pdu) : Allows j pdu := by
  unfold leaveNak at hl
  split at hl
  · next hu =>
    rw [Bool.and_eq_true] at hu
    exact allows_packetNak hj (h.busy ha (unfinished_iff.mp hu.2).1) hl
  · cases hl

end CfdpReceiver

/-! ## Handlers, when journal calls succeed -/

section

variable {env : Env} {o : Oracle} {w : World} {disk : Disk} {log : List Event} {ci : UInt32}

/-- At every moment the log is explained. -/
abbrev KeepsReplay (p : M Unit) (w : World) : Prop :=
  wp p (fun x => Replays x.disk x.log) (fun _ x => Replays x.disk x.log) (fun _ x => Replays x.disk x.log) w

theorem replays_checkCompletion (h : Replays w.disk w.log)
    (hj : JournalState.decode w.disk.stateBin = some w.rx.state)
    (hb : w.rx.unfinished = true → w.rx.InProgress) : KeepsReplay (checkCompletion env o) w := by
  refine wp_checkCompletion (fun _ => h) (fun pdu hp => ?_) (fun _ _ => ?_) fun hver _ => ?_
  · have hsend := h.send (CfdpReceiver.allows_completion hj hb hp)
    exact ⟨hsend, hsend⟩
  · have hstop : Replays (w.setRx CfdpReceiver.deactivate).disk (w.setRx CfdpReceiver.deactivate).log := h
    exact ⟨fun _ => hstop.dropJournal, fun w' hr => hstop.removed hr⟩
  · obtain ⟨heof, -, hmiss⟩ := CfdpReceiver.completion_verify hver
    have hack : Replays w.finalAck.disk w.finalAck.log :=
      Replays.send (w := w.setRx fun rx => { rx with lastAckedId := rx.state.transactionId }) h
        (.final hj hmiss heof)
    have hstop : Replays (w.finalAck.setRx CfdpReceiver.deactivate).disk
        (w.finalAck.setRx CfdpReceiver.deactivate).log := hack
    exact ⟨hack, fun _ => hstop.dropJournal, fun w' hr => hstop.removed hr⟩

theorem replays_flushChunk (h : Replays w.disk w.log) (ho : o.JournalSmooth) (hs : w.rx.state.Sane)
    (hj : JournalState.decode w.disk.stateBin = some w.rx.state)
    (hci : ci.toNat < w.rx.state.totalChunks.toNat) : KeepsReplay (flushChunk env o ci) w := by
  have hlen : ci.toNat < w.rx.state.chunkDone.length := by
    rw [hs.flags]
    exact hci
  have hmark : markIn ci w.rx.state = some (w.rx.state.markDone ci) := by
    rw [markIn, if_neg (by omega)]
  refine wp_flushChunk (fun _ _ => h.congr rfl) (fun _ _ _ _ => h.congr rfl) fun base _ => ?_
  have hcommit : Replays ((w.wroteChunk ci base).commit (.chunkDone ci) (w.rx.state.markDone ci)).disk
      ((w.wroteChunk ci base).commit (.chunkDone ci) (w.rx.state.markDone ci)).log := by
    refine Replays.commit (w := w.wroteChunk ci base) (h.congr rfl) ?_ (hs.markDone ci).flags_lt
    show (JournalState.decode w.disk.stateBin).map _ = _
    rw [hj]
    rfl
  refine ⟨fun _ => h.congr rfl, fun s s' hs' hm => ?_, fun w' hu => ?_⟩
  · obtain rfl : s = w.rx.state := Option.some.inj (hs'.symm.trans hj)
    rw [hmark] at hm
    cases hm
    exact hcommit
  -- the update succeeds: the journal holds the record
  obtain rfl : w' = (w.wroteChunk ci base).commit (.chunkDone ci) (w.rx.state.markDone ci) := by
    rcases hu with ⟨t, rfl, hno⟩ | ⟨s, s', hs', hm, rfl⟩
    · have := hno ho.updates _ hj
      rw [hmark] at this
      cases this
    · obtain rfl : s = w.rx.state := Option.some.inj (hs'.symm.trans hj)
      rw [hmark] at hm
      cases hm
      rfl
  have hj' := JournalState.decode_encode _ (hs.markDone ci).flags_lt
  have hdone : (w.rx.state.markDone ci).isDone ci = true := by
    rw [JournalState.isDone_markDone _ _ _ hlen, decide_eq_true rfl, Bool.true_or]
  have hack := hcommit.send (.ack hj' (UInt32.lt_iff_toNat_lt.mpr hci) hdone)
  refine ⟨hack, fun _ => replays_checkCompletion hack hj' fun hu => ?_, fun _ => hack⟩
  exact absurd rfl (CfdpReceiver.unfinished_iff.mp hu).1

theorem replays_metadata (m : MetadataPdu) (h : Replays w.disk w.log) (hb : Agrees w) :
    KeepsReplay (handleMetadata env o m) w := by
  refine wp_handleMetadata (fun _ _ => h) (fun hrep => ?_) fun hacc => ?_
  · -- no transfer is active, so there is no journal
    unfold CfdpReceiver.repeatsAck at hrep
    rw [Bool.and_eq_true, Bool.not_eq_true'] at hrep
    have hnone : w.disk.stateBin = none := by
      rw [hb, hrep.1]
      rfl
    have hack := h.send (.again (by rw [hnone]; rfl) w.rx.state.transactionId)
    exact ⟨hack, hack⟩
  have hs : (w.rx.state.start env o m).Sane :=
    JournalState.start_sane (CfdpReceiver.sane_of_accepts hacc) _
  refine ⟨fun _ => h.dropJournal, ?_⟩
  rintro w₁ hr w₂ rfl
  have h₁ := h.removed hr
  have hcreate : Replays ((w₁.setRx fun rx => { rx with state := rx.state.start env o m }).commit
      (.create (w₁.rx.state.start env o m)) (w₁.rx.state.start env o m)).disk
      ((w₁.setRx fun rx => { rx with state := rx.state.start env o m }).commit
      (.create (w₁.rx.state.start env o m)) (w₁.rx.state.start env o m)).log := by
    refine Replays.commit (w := w₁.setRx fun rx => { rx with state := rx.state.start env o m }) h₁ rfl ?_
    rw [hr.alike.1]
    exact hs.flags_lt
  refine ⟨fun _ => h₁.congr rfl, hcreate, fun w₃ hc => ?_⟩
  rcases hc with ⟨t, rfl, -⟩ | rfl
  · exact h₁.congr rfl
  · exact hcreate

theorem replays_data (d : DataPdu) (h : Replays w.disk w.log) (ho : o.JournalSmooth) (hb : Agrees w)
    (hok : w.rx.Ok) : KeepsReplay (handleData env o d) w := by
  refine wp_handleData (fun _ => h) (fun hacc hdone => ?_) fun hacc _ => ?_
  · have ha := CfdpReceiver.acceptsData_iff.mp hacc
    have hj := hb.decode ha.active (hok.sane ha.active)
    rintro w₁ rfl
    have hack := Replays.send (w := w.setRx (CfdpReceiver.see d.chunkIndex)) h
      (.ack hj (UInt32.lt_iff_toNat_lt.mpr ha.chunk) hdone)
    exact ⟨fun _ => ⟨hack, hack⟩, fun _ => h⟩
  have ha := CfdpReceiver.acceptsData_iff.mp hacc
  have hs := hok.sane ha.active
  have hj := hb.decode ha.active hs
  refine ⟨fun pdu hp => Replays.send (w := w.setRx (CfdpReceiver.see d.chunkIndex)) h
    (CfdpReceiver.allows_leaveNak hj hok.toSteady ha.active hp), ?_⟩
  have hleave : Replays (w.sendOption (w.rx.leaveNak d.chunkIndex)).disk
      (w.sendOption (w.rx.leaveNak d.chunkIndex)).log := by
    cases hl : w.rx.leaveNak d.chunkIndex with
    | none => exact h
    | some pdu => exact h.send (CfdpReceiver.allows_leaveNak hj hok.toSteady ha.active hl)
  rintro w₁ rfl
  refine ⟨fun _ => ?_, fun _ => hleave⟩
  have hst : ((w.sendOption (w.rx.leaveNak d.chunkIndex)).setRx (CfdpReceiver.take d)).rx.state =
      w.rx.state := by
    rw [World.setRx_rx, World.sendOption_rx, CfdpReceiver.take_state]
  refine replays_flushChunk hleave ho (by rw [hst]; exact hs) ?_ (by rw [hst]; exact ha.chunk)
  rw [hst, World.setRx_disk, World.sendOption_disk]
  exact hj

theorem replays_eof (eof : EofPdu) (h : Replays w.disk w.log) (ho : o.JournalSmooth) (hb : Agrees w)
    (hok : w.rx.Ok) : KeepsReplay (handleEof env o eof) w := by
  refine wp_handleEof (fun _ => h) (fun hacc _ => ?_) fun hacc _ => ?_
  · have ha := CfdpReceiver.active_of_acceptsEof hacc
    exact replays_checkCompletion h (hb.decode ha (hok.sane ha)) fun hu =>
      hok.busy ha (CfdpReceiver.unfinished_iff.mp hu).1
  have ha := CfdpReceiver.active_of_acceptsEof hacc
  have hs := hok.sane ha
  have hj := hb.decode ha hs
  have hcommit : Replays (w.commit .eofReceived w.rx.state.markEof).disk
      (w.commit .eofReceived w.rx.state.markEof).log := by
    refine h.commit ?_ hs.markEof.flags_lt
    rw [hj]
    rfl
  refine ⟨fun _ => h.congr rfl, fun s hs' => ?_, fun w' hu => ?_⟩
  · obtain rfl : s = w.rx.state := Option.some.inj (hs'.symm.trans hj)
    exact hcommit
  obtain rfl : w' = w.commit .eofReceived w.rx.state.markEof := by
    rcases hu with ⟨t, rfl, hno⟩ | ⟨s, s', hs', hm, rfl⟩
    · cases hno ho.updates _ hj
    · obtain rfl : s = w.rx.state := Option.some.inj (hs'.symm.trans hj)
      cases hm
      rfl
  refine replays_checkCompletion hcommit (JournalState.decode_encode _ hs.markEof.flags_lt) fun hu => ?_
  exact hok.toSteady.markEof.busy ha (CfdpReceiver.unfinished_iff.mp hu).1

theorem replays_resumeQuery (q : ResumeQueryPdu) (h : Replays w.disk w.log) (hb : Agrees w)
    (hok : w.rx.Ok) : KeepsReplay (handleResumeQuery q) w := by
  have hinfo : Replays (w.send (ResumeInfoPdu.raw
      ⟨q.transactionId, firstMissingChunk w.rx q.transactionId⟩)).disk (w.send (ResumeInfoPdu.raw
      ⟨q.transactionId, firstMissingChunk w.rx q.transactionId⟩)).log := by
    apply h.send
    rw [firstMissingChunk_eq hb hok.sane]
    exact .info q.transactionId
  exact wp_handleResumeQuery.mpr ⟨hinfo, hinfo⟩

/-- **Every handler says what the journal allows**, at every moment. -/
theorem replays_onPduReceived (h : Replays w.disk w.log) (ho : o.JournalSmooth) (hb : Agrees w)
    (hok : w.rx.Ok) (raw : Bytes) : KeepsReplay (onPduReceived env o raw) w := by
  unfold onPduReceived
  cases decodePdu raw with
  | none => exact (wp_pure ()).mpr h
  | some pdu =>
    cases pdu with
    | metadata m => exact replays_metadata m h hb
    | data d => exact replays_data d h ho hb hok
    | eof eof => exact replays_eof eof h ho hb hok
    | resumeQuery q => exact replays_resumeQuery q h hb hok

theorem replays_onBoot (h : Replays disk log) (hd : JournalAll JournalState.Sane disk) (ho : o.JournalSmooth)
    (garbage : JournalState) : KeepsReplay (onBoot env o) ⟨.construct garbage, disk, log⟩ := by
  refine wp_onBoot (fun _ => h) (fun hne hl => ?_) fun hne hl => ?_
  · obtain ⟨s, -, -, -, hs⟩ := hd.loads (w := ⟨.construct garbage, disk, log⟩) hne (ho _ rfl)
    rw [hs] at hl
    cases hl
  · obtain ⟨s, -, -, hj, hs⟩ := hd.loads (w := ⟨.construct garbage, disk, log⟩) hne (ho _ rfl)
    rw [hs]
    rintro w₁ rfl
    refine ⟨fun _ => replays_checkCompletion h hj fun hu => ?_, fun _ => h⟩
    exact absurd rfl (CfdpReceiver.unfinished_iff.mp hu).1

end

/-! ## Every run -/

section

variable {env : Env} {n n' : Node} {a : Action} {ms hist : List Moment} {j : Option JournalState}
  {s s' : JournalState} {l l' l₁ l₂ l₃ : List Event} {t k k' ci : UInt32} {pdu : Bytes}

theorem Node.replays_step (h : Replays n.disk n.log) (hd : n.Durable) (ha : JournalWorks n a)
    (hs : Node.step env n a = some (ms, n')) : Replays n'.disk n'.log := by
  refine (@Node.inv_step env (fun n => Replays n.disk n.log) (fun _ => True)
    (fun n a => JournalWorks n a ∧ n.Durable) n n' a ms (fun w raw o cut hw ha => ?_) (fun w hw => hw)
    (fun disk log garbage o cut hw ha => ?_) h ⟨ha, hd⟩ hs).1
  · obtain ⟨⟨-, ho⟩, -, hag, hok⟩ := ha
    exact wp_mono (replays_onPduReceived hw ho hag hok raw) (fun _ hx => ⟨trivial, hx⟩)
      (fun _ _ hx => ⟨trivial, hx⟩) fun _ _ hx => hx
  · obtain ⟨ho, hdur⟩ := ha
    exact wp_mono (replays_onBoot hw hdur.journal ho garbage) (fun _ hx => ⟨trivial, hx⟩)
      (fun _ _ hx => ⟨trivial, hx⟩) fun _ _ hx => hx

theorem Node.Fresh.replays (h : n.Fresh) : Replays n.disk n.log := by
  cases n with
  | up w => exact h.elim
  | down disk log =>
    obtain ⟨hb, rfl⟩ := h
    refine ⟨?_, fun l₁ pdu l₂ hl => ?_⟩
    · show JournalState.decode disk.stateBin = none
      rw [hb]
      rfl
    · exact absurd hl.symm (List.append_ne_nil_of_right_ne_nil _ (List.cons_ne_nil _ _))

theorem Run.replays (hn : n.Fresh) (h : Node.Run env JournalWorks n hist n') :
    Replays n'.disk n'.log ∧ n'.Durable := by
  refine h.inv (I := fun _ n => Replays n.disk n.log ∧ n.Durable) ⟨hn.replays, hn.durable⟩ ?_
  intro _ n a ms n' hi ha hs
  exact ⟨Node.replays_step hi.1 hi.2 ha hs, (hi.2.step ha hs).1⟩

/-- **The journal explains what is transmitted**: whatever bytes arrive and wherever crashes
strike, every PDU was allowed by the journal at that moment. -/
theorem run_explained (hn : n.Fresh) (h : Node.Run env JournalWorks n hist n')
    (hl : n'.log = l₁ ++ .sent pdu :: l₂) : Allows (journalOf l₁) pdu :=
  (Run.replays hn h).1.explained l₁ pdu l₂ hl

/-- Switched on, the receiver gets PDUs. -/
theorem run_deliveries {raws : List Bytes}
    (h : sampleRun (powerOn :: raws.map deliver) = some (hist, n)) :
    Node.Run sampleEnv JournalWorks unusedNode hist n := by
  refine Machine.exec_run h fun a ha _ _ _ => ?_
  rcases List.mem_cons.mp ha with rfl | ha
  · exact smooth_noFaults.journal
  · obtain ⟨raw, -, rfl⟩ := List.mem_map.mp ha
    exact ⟨trivial, smooth_noFaults.journal⟩

/-- The ACK of a chunk was allowed. -/
theorem run_explained_small : ∃ hist n l₁ l₂, Node.Run sampleEnv JournalWorks unusedNode hist n ∧
    n.log = l₁ ++ .sent (AckPdu.raw ⟨1, 0⟩) :: l₂ ∧ Allows (journalOf l₁) (AckPdu.raw ⟨1, 0⟩) := by
  let raws := [twoBytes.metadataRaw sampleEnv.crc32, twoBytes.packetRaw 0 0]
  have hrun : (sampleRun (powerOn :: raws.map deliver)).any (fun r =>
      decide (.sent (AckPdu.raw ⟨1, 0⟩) ∈ r.2.log)) = true := by
    decide +kernel
  simp only [Option.any_eq_true, Prod.exists, decide_eq_true_eq] at hrun
  obtain ⟨hist, n, hr, hmem⟩ := hrun
  obtain ⟨l₁, l₂, hl⟩ := List.append_of_mem hmem
  have hok := run_deliveries hr
  exact ⟨hist, n, l₁, l₂, hok, hl, run_explained unusedNode_fresh hok hl⟩

/-! ## What an answer says of the journal -/

theorem ResumeInfoPdu.raw_inj {a b : ResumeInfoPdu} (h : a.raw = b.raw) : a = b := by
  simp only [ResumeInfoPdu.raw, List.cons.injEq, true_and] at h
  obtain ⟨h1, h2⟩ := LittleEndian.le32_append_inj h
  cases a
  cases b
  simp only at h1 h2
  rw [h1, LittleEndian.le32_inj h2]

/-- The type byte tells the answers apart. -/
theorem ack_ne_nak (a : AckPdu) (nak : NakPdu) : a.raw ≠ serializeNak nak := fun he =>
  not_isAck_nak nak (he ▸ isAck_raw a)

theorem ack_ne_info (a : AckPdu) (info : ResumeInfoPdu) : a.raw ≠ info.raw := fun he =>
  not_isAck_info info (he ▸ isAck_raw a)

theorem nak_ne_info (nak : NakPdu) (info : ResumeInfoPdu) : serializeNak nak ≠ info.raw := by
  intro he
  have := congrArg List.head? he
  cases this

theorem Allows.of_ack (h : Allows j (AckPdu.raw ⟨t, ci⟩)) (hne : ci ≠ uint32Max) :
    ∃ s, j = some s ∧ s.transactionId = t ∧ s.isDone ci = true := by
  generalize he : AckPdu.raw ⟨t, ci⟩ = pdu at h
  cases h with
  | nak => exact absurd he (ack_ne_nak _ _)
  | ack hs _ hdone =>
    cases AckPdu.raw_inj.mp he
    exact ⟨_, hs, rfl, hdone⟩
  | final =>
    cases AckPdu.raw_inj.mp he
    exact absurd rfl hne
  | again =>
    cases AckPdu.raw_inj.mp he
    exact absurd rfl hne
  | info => exact absurd he (ack_ne_info _ _)

theorem Allows.of_final (h : Allows j (AckPdu.raw ⟨t, uint32Max⟩)) (hs : j = some s) :
    s.computeMissingChunks = [] := by
  generalize he : AckPdu.raw ⟨t, uint32Max⟩ = pdu at h
  cases h with
  | nak => exact absurd he (ack_ne_nak _ _)
  | ack _ hlt =>
    cases AckPdu.raw_inj.mp he
    rw [UInt32.lt_iff_toNat_lt, show uint32Max.toNat = 2 ^ 32 - 1 from rfl] at hlt
    have := UInt32.toNat_lt (JournalState.totalChunks ‹_›)
    omega
  | final hs' hmiss =>
    rw [hs] at hs'
    cases hs'
    exact hmiss
  | again hs' =>
    rw [hs] at hs'
    cases hs'
  | info => exact absurd he (ack_ne_info _ _)

theorem Allows.of_nak {nak : NakPdu} (h : Allows j (serializeNak nak)) (hs : j = some s) :
    ∃ ci, s.isDone ci = false ∧ ∀ r ∈ nak.missingPackets, r.chunkIndex = ci := by
  generalize he : serializeNak nak = pdu at h
  cases h with
  | nak hs' _ _ hr _ hopen =>
    rw [hs] at hs'
    cases hs'
    cases serializeNak_inj he
    exact ⟨_, hopen, hr⟩
  | ack => exact absurd he.symm (ack_ne_nak _ _)
  | final => exact absurd he.symm (ack_ne_nak _ _)
  | again => exact absurd he.symm (ack_ne_nak _ _)
  | info => exact absurd he (nak_ne_info _ _)

theorem Allows.of_info (h : Allows j (ResumeInfoPdu.raw ⟨t, k⟩)) : k = resumePoint j t := by
  generalize he : ResumeInfoPdu.raw ⟨t, k⟩ = pdu at h
  cases h with
  | nak => exact absurd he.symm (nak_ne_info _ _)
  | ack => exact absurd he.symm (ack_ne_info _ _)
  | final => exact absurd he.symm (ack_ne_info _ _)
  | again => exact absurd he.symm (ack_ne_info _ _)
  | info =>
    cases ResumeInfoPdu.raw_inj he
    rfl

/-! ## Answers that agree -/

/-- The journal is neither created nor removed. -/
def OnlyMarks (l : List Event) : Prop := (∀ s, .journal (.create s) ∉ l) ∧ .journal .remove ∉ l

/-- The same transfer with as many chunks done, or more. -/
structure JournalState.Later (s s' : JournalState) : Prop where
  transactionId : s'.transactionId = s.transactionId
  totalChunks : s'.totalChunks = s.totalChunks
  done : ∀ ci, s.isDone ci = true → s'.isDone ci = true

namespace JournalState

theorem later_refl (s : JournalState) : s.Later s := ⟨rfl, rfl, fun _ h => h⟩

theorem later_markDone (s : JournalState) (ci : UInt32) : s.Later (s.markDone ci) :=
  ⟨rfl, rfl, fun _ h => isDone_markDone_of h ci⟩

theorem later_markEof (s : JournalState) : s.Later s.markEof := ⟨rfl, rfl, fun _ h => h⟩

theorem Later.trans {s'' : JournalState} (h : s.Later s') (h' : s'.Later s'') : s.Later s'' where
  transactionId := h'.transactionId.trans h.transactionId
  totalChunks := h'.totalChunks.trans h.totalChunks
  done ci hd := h'.done ci (h.done ci hd)

theorem Later.finished (h : s.Later s') (hm : s.computeMissingChunks = []) :
    s'.computeMissingChunks = [] := by
  rw [computeMissingChunks_eq_nil] at hm ⊢
  intro ci hci
  rw [h.totalChunks] at hci
  exact h.done ci (hm ci hci)

/-- A chunk that is done is not the one to resume at. -/
theorem resumePoint_ne (s : JournalState) (hdone : s.isDone ci = true) (hne : ci ≠ uint32Max) :
    resumePoint (some s) s.transactionId ≠ ci := by
  unfold resumePoint
  simp only [bne_self_eq_false, Bool.false_eq_true, if_false]
  cases hm : s.computeMissingChunks with
  | nil => exact hne.symm
  | cons cr crs =>
    obtain ⟨-, hopen, -⟩ := computeMissingChunks_head hm
    rintro rfl
    rw [hdone] at hopen
    cases hopen

/-- The chunk to resume at does not go back. -/
theorem Later.resumePoint_le (h : s.Later s') (t : UInt32) :
    resumePoint (some s) t ≤ resumePoint (some s') t := by
  simp only [resumePoint]
  rw [h.transactionId]
  split
  · exact UInt32.le_refl _
  cases hm' : s'.computeMissingChunks with
  | nil =>
    refine UInt32.le_iff_toNat_le.mpr ?_
    exact Nat.le_of_lt_succ (UInt32.toNat_lt _)
  | cons cr' crs' =>
    obtain ⟨hlt', hopen', -⟩ := computeMissingChunks_head hm'
    rw [h.totalChunks] at hlt'
    have hopen : s.isDone cr'.firstChunk = false := by
      by_contra hd
      rw [h.done _ (by simpa using hd)] at hopen'
      cases hopen'
    cases hm : s.computeMissingChunks with
    | nil =>
      rw [(computeMissingChunks_eq_nil s).mp hm _ hlt'] at hopen
      cases hopen
    | cons cr crs =>
      obtain ⟨-, -, hleast⟩ := computeMissingChunks_head hm
      rw [← UInt32.not_lt]
      intro hlt
      rw [hleast _ hlt] at hopen
      cases hopen

end JournalState

theorem journalOf_append_cons (l l' : List Event) (e : Event) :
    journalOf (l ++ e :: l') = journalOf (l ++ [e] ++ l') := by
  rw [List.append_assoc, List.singleton_append]

/-- Through marks only, a journal stays that of its transfer. -/
theorem journalOf_later (hl : OnlyMarks l') (hj : journalOf l = some s) :
    ∃ s', journalOf (l ++ l') = some s' ∧ s.Later s' := by
  induction l' generalizing l s with
  | nil => exact ⟨s, by rw [List.append_nil]; exact hj, s.later_refl⟩
  | cons e es ih =>
    obtain ⟨hcreate, hremove⟩ := hl
    have hes : OnlyMarks es :=
      ⟨fun s h => hcreate s (List.mem_cons_of_mem e h), fun h => hremove (List.mem_cons_of_mem e h)⟩
    have hone : ∃ s₁, journalOf (l ++ [e]) = some s₁ ∧ s.Later s₁ := by
      cases e with
      | sent pdu => exact ⟨s, by rw [journalOf_append_sent]; exact hj, s.later_refl⟩
      | journal u =>
        rw [journalOf_append_journal, hj]
        cases u with
        | create s₁ => exact absurd List.mem_cons_self (hcreate s₁)
        | chunkDone ci => exact ⟨_, rfl, s.later_markDone ci⟩
        | eofReceived => exact ⟨_, rfl, s.later_markEof⟩
        | remove => exact absurd List.mem_cons_self hremove
    obtain ⟨s₁, hs₁, hlater₁⟩ := hone
    obtain ⟨s', hs', hlater⟩ := ih hes hs₁
    rw [journalOf_append_cons]
    exact ⟨s', hs', hlater₁.trans hlater⟩

/-- Without a journal, there is none until one is created. -/
theorem journalOf_none (hl : OnlyMarks l') (hj : journalOf l = none) : journalOf (l ++ l') = none := by
  induction l' generalizing l with
  | nil => rwa [List.append_nil]
  | cons e es ih =>
    obtain ⟨hcreate, hremove⟩ := hl
    rw [journalOf_append_cons]
    refine ih ⟨fun s h => hcreate s (List.mem_cons_of_mem e h),
      fun h => hremove (List.mem_cons_of_mem e h)⟩ ?_
    cases e with
    | sent pdu => rwa [journalOf_append_sent]
    | journal u =>
      rw [journalOf_append_journal, hj]
      cases u with
      | create s₁ => exact absurd List.mem_cons_self (hcreate s₁)
      | chunkDone ci => rfl
      | eofReceived => rfl
      | remove => rfl

/-- **Answers do not contradict each other**, while the journal is neither created nor removed:
a chunk that was acknowledged is not asked for again, neither by a NAK nor by a ResumeInfo, and
the chunk to resume at does not go back. -/
theorem run_answers_agree (hn : n.Fresh) (h : Node.Run env JournalWorks n hist n') (pdu' : Bytes)
    (hl : n'.log = l₁ ++ .sent pdu :: (l₂ ++ .sent pdu' :: l₃)) (hsame : OnlyMarks l₂) :
    (∀ t ci, ci ≠ uint32Max → pdu = AckPdu.raw ⟨t, ci⟩ →
      (∀ nak, pdu' = serializeNak nak → ∀ r ∈ nak.missingPackets, r.chunkIndex ≠ ci) ∧
        ∀ k, pdu' = ResumeInfoPdu.raw ⟨t, k⟩ → k ≠ ci) ∧
    ∀ t k k', pdu = ResumeInfoPdu.raw ⟨t, k⟩ → pdu' = ResumeInfoPdu.raw ⟨t, k'⟩ → k ≤ k' := by
  have hexpl := (Run.replays hn h).1.explained
  have hfirst := hexpl l₁ pdu _ hl
  have hsecond : Allows (journalOf (l₁ ++ .sent pdu :: l₂)) pdu' := by
    refine hexpl _ pdu' l₃ ?_
    rw [hl, List.append_assoc, List.cons_append]
  rw [journalOf_append_cons] at hsecond
  refine ⟨?_, ?_⟩
  · rintro t ci hne rfl
    obtain ⟨s, hs, ht, hdone⟩ := hfirst.of_ack hne
    obtain ⟨s', hs', hlater⟩ := journalOf_later hsame
      ((journalOf_append_sent l₁ _).trans hs)
    have hdone' := hlater.done ci hdone
    refine ⟨?_, ?_⟩
    · rintro nak rfl r hr hci
      obtain ⟨c, hopen, hall⟩ := hsecond.of_nak hs'
      rw [← hall r hr, hci, hdone'] at hopen
      cases hopen
    · rintro k rfl
      rw [hsecond.of_info, hs', ← ht, ← hlater.transactionId]
      exact s'.resumePoint_ne hdone' hne
  · rintro t k k' rfl rfl
    rw [hfirst.of_info, hsecond.of_info]
    cases hj : journalOf l₁ with
    | none =>
      rw [journalOf_none hsame ((journalOf_append_sent l₁ _).trans hj)]
      exact UInt32.le_refl _
    | some s =>
      obtain ⟨s', hs', hlater⟩ := journalOf_later hsame ((journalOf_append_sent l₁ _).trans hj)
      rw [hs']
      exact hlater.resumePoint_le t

/-- After the ACK of chunk 0, the receiver does not name it as the chunk to resume at. -/
theorem run_answers_agree_small : ∃ hist n l k, Node.Run sampleEnv JournalWorks unusedNode hist n ∧
    n.log = l ++ [.sent (AckPdu.raw ⟨1, 0⟩), .sent (ResumeInfoPdu.raw ⟨1, k⟩)] ∧ k ≠ 0 := by
  let raws := [twoBytes.metadataRaw sampleEnv.crc32, twoBytes.packetRaw 0 0, queryOf 1]
  have hrun : (sampleRun (powerOn :: raws.map deliver)).any (fun r =>
      decide ([.sent (AckPdu.raw ⟨1, 0⟩), .sent (ResumeInfoPdu.raw ⟨1, 1⟩)] <:+ r.2.log)) = true := by
    decide +kernel
  simp only [Option.any_eq_true, Prod.exists, decide_eq_true_eq] at hrun
  obtain ⟨hist, n, hr, l, hl⟩ := hrun
  have hok := run_deliveries hr
  have hsame : OnlyMarks [] := ⟨fun _ h => (List.not_mem_nil h).elim, List.not_mem_nil⟩
  have hne : (0 : UInt32) ≠ uint32Max := by decide
  have hlog : n.log = l ++ .sent (AckPdu.raw ⟨1, 0⟩) :: ([] ++ .sent (ResumeInfoPdu.raw ⟨1, 1⟩) :: []) :=
    hl.symm
  obtain ⟨hacked, -⟩ := run_answers_agree unusedNode_fresh hok _ hlog hsame
  exact ⟨hist, n, l, 1, hok, hl.symm, (hacked 1 0 hne rfl).2 1 rfl⟩

end

end Cfdp
