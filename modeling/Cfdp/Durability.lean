import Cfdp.Invariant
import Cfdp.Sender

/-!
# The journal over time

The log lists the journal updates in order. The journal on disk is what replaying
the log gives, and every chunk acknowledged since it was created is marked in it
(`Durable`); between PDUs it is the record in memory (`Agrees`). A crash inside a
handler leaves a prefix of the updates of the handler. All this needs journal
calls that succeed.
-/

namespace Cfdp

open Crash Prog Machine

/-! ## The log only grows -/

/-- The log of `w` is the beginning of that of `w'`. -/
def World.Grows (w w' : World) : Prop := w.log <+: w'.log

namespace World

theorem grows_refl (w : World) : w.Grows w := List.prefix_rfl

theorem Grows.trans {a b c : World} (h : a.Grows b) (h' : b.Grows c) : a.Grows c :=
  List.IsPrefix.trans h h'

theorem grows_record (w : World) (e : Event) : w.Grows (w.record e) := List.prefix_append _ _

end World

section

variable {α β : Type} (o : Oracle) (env : Env)

/-- A program that only appends to the log. -/
abbrev Logs (p : M α) : Prop := Along World.Grows p

theorem Logs.bind {p : M α} {f : α → M β} (hp : Logs p) (hf : ∀ a, Logs (f a)) : Logs (p >>= f) :=
  along_bind (r := World.Grows) World.Grows.trans hp hf

theorem logs_pure (a : α) : Logs (pure a : M α) := along_pure World.grows_refl a

theorem logs_get : Logs (get : M World) := along_get World.grows_refl

theorem logs_throw (e : RuntimeError) : Logs (throw e : M α) := along_throw World.grows_refl e

theorem logs_setRx (f : World → CfdpReceiver → CfdpReceiver) :
    Logs (modify fun w => w.setRx (f w) : M Unit) :=
  along_modify fun w => World.grows_refl w

/-- A step that leaves the log alone. -/
theorem logs_quiet {f : World → World} (h : ∀ w : World, (f w).log = w.log) :
    Logs (step f : M Unit) :=
  along_step World.grows_refl fun w => ⟨[], (List.append_nil _).trans (h w).symm⟩

theorem logs_step {f : World → World} (h : ∀ w : World, w.Grows (f w)) : Logs (step f : M Unit) :=
  along_step World.grows_refl h

theorem logs_steps {fs : List (World → World)} (h : ∀ f ∈ fs, ∀ w : World, w.Grows (f w)) :
    Logs (steps fs : M Unit) :=
  along_steps (r := World.Grows) World.grows_refl World.Grows.trans h

theorem logs_transportSend (pdu : Bytes) : Logs (transportSend pdu) :=
  logs_step fun w => w.grows_record _

theorem logs_writeTmp (bs : Bytes) : Logs (Journal.writeTmp bs) := by
  refine logs_steps fun f hf w => ?_
  obtain ⟨i, -, rfl⟩ := List.mem_map.mp hf
  exact World.grows_refl w

theorem logs_atomicWrite (u : JournalUpdate) (s : JournalState) :
    Logs (Journal.atomicWrite o u s) := by
  refine along_ite (logs_pure _) (Logs.bind (logs_quiet fun _ => rfl) fun _ => ?_)
  refine along_ite ((logs_writeTmp _).bind fun _ => logs_pure _) ((logs_writeTmp _).bind fun _ => ?_)
  exact along_ite (logs_pure _)
    (Logs.bind (logs_step fun w => World.grows_record _ _) fun _ => logs_pure _)

theorem logs_update (u : JournalUpdate) (f : JournalState → Option JournalState) :
    Logs (Journal.update o u f) := by
  refine logs_get.bind fun _ => along_ite (logs_pure _) ?_
  split
  · exact logs_pure _
  · split
    · exact logs_pure _
    · exact logs_atomicWrite o _ _

theorem logs_remove : Logs (Journal.remove o) :=
  logs_get.bind fun _ => along_ite (logs_pure _)
    (Logs.bind (logs_step fun _ => World.grows_record _ _) fun _ => logs_pure _)

theorem logs_sendNakPackets (ci : UInt32) : Logs (sendNakPackets ci) :=
  logs_get.bind fun _ => along_ite (logs_pure _) (logs_transportSend _)

theorem logs_sendAck (ci : UInt32) : Logs (sendAck ci) := logs_get.bind fun _ => logs_transportSend _

theorem logs_openDest (call : FsCall) (path : Bytes) : Logs (openDest o call path) :=
  logs_get.bind fun _ => logs_pure _

theorem logs_openOrCreate (path : Bytes) (fileSize : UInt64) :
    Logs (openOrCreate o path fileSize) := by
  refine (logs_openDest o _ _).bind fun _ => along_ite (logs_pure _) (along_ite ?_ (logs_throw _))
  refine Logs.bind ?_ fun _ => (logs_openDest o _ _).bind fun _ =>
    along_ite (logs_pure _) (logs_throw _)
  refine along_ite (logs_throw _) (Logs.bind (logs_quiet fun _ => rfl) fun _ => ?_)
  exact along_ite (logs_quiet fun _ => rfl) (logs_pure _)

theorem logs_writeBytes (path : Bytes) (offset : Nat) (data : Bytes) :
    Logs (writeBytes path offset data) := by
  refine logs_get.bind fun _ => logs_steps fun f hf w' => ?_
  obtain ⟨i, -, rfl⟩ := List.mem_map.mp hf
  exact World.grows_refl w'

theorem logs_writeChunk (path : Bytes) (offset : UInt64) (data : Bytes) :
    Logs (writeChunk o path offset data) :=
  along_ite (logs_throw _) (along_ite ((logs_writeBytes _ _ _).bind fun _ => logs_throw _)
    (logs_writeBytes _ _ _))

theorem logs_checkCompletion : Logs (checkCompletion env o) := by
  refine logs_get.bind fun w => along_ite (logs_pure _) (along_ite (logs_sendNakPackets _) ?_)
  simp only
  split
  · exact logs_transportSend _
  · refine along_ite (logs_pure _) (along_ite ?_ ?_)
    · exact (logs_setRx fun _ => _).bind fun _ => (logs_remove o).bind fun _ => logs_pure _
    · exact (logs_setRx fun _ => _).bind fun _ => (logs_sendAck _).bind fun _ =>
        (logs_setRx fun _ => _).bind fun _ => (logs_remove o).bind fun _ => logs_pure _

theorem logs_flushChunk (ci : UInt32) : Logs (flushChunk env o ci) :=
  logs_get.bind fun _ => (logs_openOrCreate o _ _).bind fun _ =>
    (logs_writeChunk o _ _ _).bind fun _ =>
    (logs_setRx fun _ => _).bind fun _ => (logs_update o _ _).bind fun _ =>
      (logs_sendAck _).bind fun _ =>
      (logs_setRx fun _ => _).bind fun _ => along_ite (logs_checkCompletion o env) (logs_pure _)

theorem logs_handleMetadata (metadata : MetadataPdu) : Logs (handleMetadata env o metadata) := by
  refine logs_get.bind fun _ => along_ite (logs_pure _) (along_ite (logs_sendAck _)
    (along_ite (logs_pure _) ?_))
  refine Logs.bind ?_ fun _ => (logs_setRx fun _ => _).bind fun _ => logs_get.bind fun _ =>
    (logs_atomicWrite o _ _).bind fun _ => logs_setRx fun _ => _
  exact logs_get.bind fun _ => along_ite ((logs_remove o).bind fun _ => logs_pure _) (logs_pure _)

theorem logs_switchChunk (ci n : UInt32) : Logs (switchChunk ci n) := by
  refine logs_get.bind fun _ => along_ite (Logs.bind ?_ fun _ => logs_setRx fun _ => _) (logs_pure _)
  exact logs_get.bind fun _ => along_ite (logs_sendNakPackets _) (logs_pure _)

theorem logs_handleData (dpdu : DataPdu) : Logs (handleData env o dpdu) := by
  refine logs_get.bind fun _ => along_ite (logs_pure _) ((logs_setRx fun _ => _).bind fun _ => ?_)
  refine along_ite (along_ite (logs_sendAck _) (logs_pure _)) ?_
  exact (logs_switchChunk _ _).bind fun _ => (logs_setRx fun _ => _).bind fun _ =>
    logs_get.bind fun _ =>
    along_ite (logs_flushChunk o env _) (logs_pure _)

theorem logs_handleEof (eof : EofPdu) : Logs (handleEof env o eof) := by
  refine logs_get.bind fun _ => along_ite (logs_pure _) (along_ite (logs_pure _) ?_)
  refine Logs.bind ?_ fun _ => logs_checkCompletion o env
  exact logs_get.bind fun _ => along_ite ((logs_update o _ _).bind fun _ => logs_setRx fun _ => _)
    (logs_pure _)

theorem logs_onPduReceived (raw : Bytes) : Logs (onPduReceived env o raw) := by
  unfold onPduReceived
  split
  · exact logs_handleMetadata o env _
  · exact logs_handleData o env _
  · exact logs_handleEof o env _
  · exact logs_get.bind fun _ => logs_transportSend _
  · exact logs_pure _

theorem logs_onBoot : Logs (onBoot env o) := by
  refine logs_get.bind fun _ => along_ite (logs_pure _) ?_
  split
  refine (logs_setRx fun _ => _).bind fun _ => along_ite ((logs_remove o).bind fun _ => logs_pure _) ?_
  exact (logs_setRx fun _ => _).bind fun _ => along_ite (logs_checkCompletion o env) (logs_pure _)

end

/-! ## What the log says about the journal -/

def Event.update? : Event → Option JournalUpdate
  | .sent _ => none
  | .journal u => some u

/-- The journal updates of a log. -/
def updatesOf (log : List Event) : List JournalUpdate := log.filterMap Event.update?

/-- Updates applied one after the other. -/
def applyAll (us : List JournalUpdate) (j : Option JournalState) : Option JournalState :=
  us.foldl (fun j u => u.apply j) j

/-- The events since the journal was last created. -/
def sinceCreate (log : List Event) : List Event :=
  log.foldl (fun acc e => match e with
    | .journal (.create _) => []
    | e => acc ++ [e]) []

@[simp] theorem updatesOf_append (l l' : List Event) :
    updatesOf (l ++ l') = updatesOf l ++ updatesOf l' :=
  List.filterMap_append

@[simp] theorem updatesOf_journal (u : JournalUpdate) : updatesOf [.journal u] = [u] := rfl

@[simp] theorem updatesOf_sent (pdu : Bytes) : updatesOf [.sent pdu] = [] := rfl

@[simp] theorem applyAll_append (us us' : List JournalUpdate) (j : Option JournalState) :
    applyAll (us ++ us') j = applyAll us' (applyAll us j) := List.foldl_append

theorem sinceCreate_create (log : List Event) (s : JournalState) :
    sinceCreate (log ++ [.journal (.create s)]) = [] := by
  rw [sinceCreate, List.foldl_append]; rfl

theorem mem_sinceCreate {log : List Event} {e e' : Event} (h : e ∈ sinceCreate (log ++ [e'])) :
    e ∈ sinceCreate log ∨ e = e' := by
  unfold sinceCreate at h
  rw [List.foldl_append] at h
  simp only [List.foldl_cons, List.foldl_nil] at h
  split at h
  · cases h
  · rcases List.mem_append.mp h with h | h
    · exact .inl h
    · exact .inr (List.mem_singleton.mp h)

/-- What holds of disk and log at every moment. -/
structure Durable (disk : Disk) (log : List Event) : Prop where
  journal : JournalAll JournalState.Sane disk
  replayed : JournalState.decode disk.stateBin = applyAll (updatesOf log) none
  acks : ∀ s, JournalState.decode disk.stateBin = some s → ∀ ci, ci ≠ uint32Max →
    .sent (AckPdu.raw ⟨s.transactionId, ci⟩) ∈ sinceCreate log → s.isDone ci = true

/-- Between PDUs: the journal is the record in memory, and exists while a transfer is active. -/
def Agrees (w : World) : Prop :=
  w.disk.stateBin = if w.rx.transferActive then some w.rx.state.encode else none

section

variable {w w' : World} {o : Oracle} {env : Env} {disk disk' : Disk} {log : List Event}
  {s : JournalState}

theorem Durable.congr (h : Durable disk log) (hb : disk'.stateBin = disk.stateBin) :
    Durable disk' log := by
  refine ⟨fun c hc => h.journal c (hb ▸ hc), by rw [hb]; exact h.replayed, ?_⟩
  rw [hb]; exact h.acks

theorem durable_create (hs : s.Sane) :
    Durable (w.commit (.create s) s).disk (w.commit (.create s) s).log := by
  have hd : JournalState.decode (w.commit (.create s) s).disk.stateBin = some s :=
    JournalState.decode_encode s hs.flags_lt
  refine ⟨journalAll_some rfl hs hs.flags_lt, ?_, fun s' _ ci _ hmem => ?_⟩
  · rw [hd]; simp [JournalUpdate.apply, applyAll]
  · rw [World.commit_log, sinceCreate_create] at hmem; cases hmem

/-- An update that keeps the transaction and the marks of the record. -/
theorem Durable.update (h : Durable w.disk w.log) {u : JournalUpdate} {s' : JournalState}
    (hd : JournalState.decode w.disk.stateBin = some s) (hs : s'.Sane)
    (hu : u.apply (some s) = some s')
    (htid : s'.transactionId = s.transactionId)
    (hmark : ∀ ci, s.isDone ci = true → s'.isDone ci = true) :
    Durable (w.commit u s').disk (w.commit u s').log := by
  have hd' : JournalState.decode (w.commit u s').disk.stateBin = some s' :=
    JournalState.decode_encode s' hs.flags_lt
  refine ⟨journalAll_some rfl hs hs.flags_lt, ?_, fun s₂ hs₂ ci hci hmem => ?_⟩
  · rw [hd', World.commit_log, updatesOf_append, applyAll_append, ← h.replayed, hd]
    exact hu.symm
  · rw [hd'] at hs₂; cases hs₂
    rcases mem_sinceCreate hmem with hmem | hmem
    · exact hmark ci (h.acks s hd ci hci (htid ▸ hmem))
    · cases hmem

theorem Durable.markDone (h : Durable w.disk w.log)
    (hd : JournalState.decode w.disk.stateBin = some s) {ci : UInt32}
    (hci : ci.toNat < s.chunkDone.length) :
    Durable (w.commit (.chunkDone ci) (s.markDone ci)).disk
      (w.commit (.chunkDone ci) (s.markDone ci)).log := by
  refine h.update hd ((h.journal.decode hd).1.markDone ci) rfl rfl fun cj hj => ?_
  rw [JournalState.isDone_markDone _ _ _ hci, hj, Bool.or_true]

theorem Durable.markEof (h : Durable w.disk w.log)
    (hd : JournalState.decode w.disk.stateBin = some s) :
    Durable (w.commit .eofReceived s.markEof).disk (w.commit .eofReceived s.markEof).log :=
  h.update hd (h.journal.decode hd).1.markEof rfl rfl fun _ hj => hj

theorem durable_dropJournal : Durable w.dropJournal.disk w.dropJournal.log := by
  refine ⟨journalAll_dropJournal, ?_, fun s hs => ?_⟩
  · simp [JournalUpdate.apply, applyAll]
  · cases hs

theorem Durable.send (h : Durable w.disk w.log) (pdu : Bytes)
    (hp : ∀ s ci, JournalState.decode w.disk.stateBin = some s → ci ≠ uint32Max →
      pdu = AckPdu.raw ⟨s.transactionId, ci⟩ → s.isDone ci = true) :
    Durable (w.send pdu).disk (w.send pdu).log := by
  refine ⟨h.journal, ?_, fun s hs ci hci hmem => ?_⟩
  · rw [World.send_log, updatesOf_append, updatesOf_sent, List.append_nil]
    exact h.replayed
  · rcases mem_sinceCreate hmem with hmem | hmem
    · exact h.acks s hs ci hci hmem
    · cases hmem; exact hp s ci hs hci rfl

theorem Durable.sendOther (h : Durable w.disk w.log) {pdu : Bytes} (hp : ¬ IsAck pdu) :
    Durable (w.send pdu).disk (w.send pdu).log :=
  h.send pdu fun _ _ _ _ he => absurd (he ▸ isAck_raw _) hp

theorem Durable.sendFinal (h : Durable w.disk w.log) (t : UInt32) :
    Durable (w.send (AckPdu.raw ⟨t, uint32Max⟩)).disk (w.send (AckPdu.raw ⟨t, uint32Max⟩)).log :=
  h.send _ fun _ _ _ hci he => absurd (congrArg AckPdu.chunkIndex (AckPdu.raw_inj.mp he)).symm hci

/-! ## Handlers, when journal calls succeed -/

/-- At every moment the journal is durable; at the end it agrees with memory. -/
abbrev KeepsDurable (p : M Unit) (w : World) : Prop :=
  wp p (fun x => Durable x.disk x.log) (fun _ x => Durable x.disk x.log ∧ Agrees x)
    (fun _ x => Durable x.disk x.log) w

theorem Removed.stateBin (h : Removed o w w') (ho : o.JournalSmooth) : w'.disk.stateBin = none := by
  rcases h with ⟨rfl, hn⟩ | ⟨rfl, -⟩
  · exact hn ho
  · rfl

theorem Durable.removed (h : Durable w.disk w.log) (hr : Removed o w w') :
    Durable w'.disk w'.log := by
  rcases hr with ⟨rfl, -⟩ | ⟨rfl, -⟩
  · exact h
  · exact durable_dropJournal

theorem keepsDurable_checkCompletion (h : Durable w.disk w.log) (ho : o.JournalSmooth)
    (hb : Agrees w) : KeepsDurable (checkCompletion env o) w := by
  -- the journal is removed together with the active flag
  have hend (w₁ : World) (h₁ : Durable w₁.disk w₁.log) (w' : World)
      (hr : Removed o (w₁.setRx CfdpReceiver.deactivate) w') :
      Durable w'.disk w'.log ∧ Agrees w' := by
    refine ⟨Durable.removed (w := w₁.setRx CfdpReceiver.deactivate) h₁ hr, ?_⟩
    rw [Agrees, hr.stateBin ho, hr.alike.1]; rfl
  refine wp_checkCompletion (fun _ => ⟨h, hb⟩) (fun pdu hp => ?_) (fun _ _ => ?_) fun _ _ => ?_
  · have h1 := h.sendOther (CfdpReceiver.completion_not_ack hp)
    exact ⟨h1, h1, hb⟩
  · exact ⟨fun _ => durable_dropJournal, hend w h⟩
  · have h1 : Durable w.finalAck.disk w.finalAck.log :=
      Durable.sendFinal (w := w.setRx fun rx => { rx with lastAckedId := rx.state.transactionId }) h _
    exact ⟨h1, fun _ => durable_dropJournal, hend _ h1⟩

theorem Agrees.decode (hb : Agrees w) (ha : w.rx.transferActive = true) (hs : w.rx.state.Sane) :
    JournalState.decode w.disk.stateBin = some w.rx.state := by
  rw [hb, ha, if_pos rfl, JournalState.decode_encode _ hs.flags_lt]

theorem keepsDurable_flushChunk (h : Durable w.disk w.log) (ho : o.JournalSmooth) (hb : Agrees w)
    (ha : w.rx.transferActive = true) (hs : w.rx.state.Sane) {ci : UInt32}
    (hci : ci.toNat < w.rx.state.totalChunks.toNat) : KeepsDurable (flushChunk env o ci) w := by
  have hd := hb.decode ha hs
  have hlen : ci.toNat < w.rx.state.chunkDone.length := by rw [hs.flags]; exact hci
  have hmark : markIn ci w.rx.state = some (w.rx.state.markDone ci) := by
    rw [markIn, if_neg (by omega)]
  refine wp_flushChunk (fun _ _ => h.congr rfl) (fun _ _ _ _ => h.congr rfl) fun base _ => ?_
  have h1 : Durable (w.wroteChunk ci base).disk (w.wroteChunk ci base).log := h.congr rfl
  have hcommit : Durable ((w.wroteChunk ci base).commit (.chunkDone ci) (w.rx.state.markDone ci)).disk
      ((w.wroteChunk ci base).commit (.chunkDone ci) (w.rx.state.markDone ci)).log :=
    h1.markDone hd hlen
  refine ⟨fun _ => h1.congr rfl, fun s s' hs' hm => ?_, fun w' hu => ?_⟩
  · have hs'' : s = w.rx.state := Option.some.inj (hs'.symm.trans hd)
    rw [hs'', hmark] at hm
    cases hm
    exact hcommit
  -- the update succeeds: the journal holds the record
  obtain rfl : w' = (w.wroteChunk ci base).commit (.chunkDone ci) (w.rx.state.markDone ci) := by
    rcases hu with ⟨t, rfl, hno⟩ | ⟨s, s', hs', hm, rfl⟩
    · have := hno ho.updates _ hd
      rw [hmark] at this; cases this
    · have hs'' : s = w.rx.state := Option.some.inj (hs'.symm.trans hd)
      rw [hs'', hmark] at hm
      cases hm; rfl
  have hsend := hcommit.send (AckPdu.raw
      ⟨((w.wroteChunk ci base).commit (.chunkDone ci) (w.rx.state.markDone ci)).rx.state.transactionId, ci⟩) ?_
  · have hag : Agrees ((((w.wroteChunk ci base).commit (.chunkDone ci) (w.rx.state.markDone ci)).send
        (AckPdu.raw ⟨((w.wroteChunk ci base).commit (.chunkDone ci)
          (w.rx.state.markDone ci)).rx.state.transactionId, ci⟩)).setRx CfdpReceiver.clearList) := by
      show _ = if w.rx.transferActive then _ else _
      rw [ha]; rfl
    exact ⟨hsend, fun _ => keepsDurable_checkCompletion hsend ho hag, fun _ => ⟨hsend, hag⟩⟩
  · intro s cj hs' _ he
    have hs'' := JournalState.decode_encode _ (hs.markDone ci).flags_lt
    obtain rfl : s = w.rx.state.markDone ci := Option.some.inj (hs'.symm.trans hs'')
    have hj : cj = ci := (congrArg AckPdu.chunkIndex (AckPdu.raw_inj.mp he)).symm
    rw [hj, JournalState.isDone_markDone _ _ _ hlen]
    simp

theorem keepsDurable_metadata (metadata : MetadataPdu) (h : Durable w.disk w.log)
    (ho : o.JournalSmooth) (hb : Agrees w) :
    KeepsDurable (handleMetadata env o metadata) w := by
  refine wp_handleMetadata (fun _ _ => ⟨h, hb⟩) (fun _ => ?_) fun hacc => ?_
  · have h1 := h.sendFinal w.rx.state.transactionId
    exact ⟨h1, h1, hb⟩
  have hs : (w.rx.state.start env o metadata).Sane :=
    JournalState.start_sane (CfdpReceiver.sane_of_accepts hacc) _
  refine ⟨fun _ => durable_dropJournal, ?_⟩
  rintro w₁ hr w₂ rfl
  have h1 := h.removed hr
  have hst : (w₁.setRx fun rx => { rx with state := rx.state.start env o metadata }).rx.state =
      w.rx.state.start env o metadata := by
    rw [World.setRx_rx, hr.alike.1]
  have h2 : Durable (w₁.setRx fun rx => { rx with state := rx.state.start env o metadata }).disk
      (w₁.setRx fun rx => { rx with state := rx.state.start env o metadata }).log := h1
  have h3 := durable_create
    (w := w₁.setRx fun rx => { rx with state := rx.state.start env o metadata }) hs
  rw [hst]
  refine ⟨fun _ => h2.congr rfl, h3, fun w₃ hc => ?_⟩
  rcases hc with ⟨t, -, hno⟩ | rfl
  · exact absurd ho.updates.toWrites hno
  · refine ⟨h3, ?_⟩
    show _ = some _
    simp only [World.setRx_rx, World.setRx_disk, World.commit_stateBin, World.commit_rx,
      CfdpReceiver.activate, hr.alike.1]

theorem keepsDurable_data (dpdu : DataPdu) (h : Durable w.disk w.log) (ho : o.JournalSmooth) (hb : Agrees w)
    (hok : w.rx.Ok) : KeepsDurable (handleData env o dpdu) w := by
  refine wp_handleData (fun _ => ⟨h, hb⟩) (fun hacc hd => ?_) fun hacc hd => ?_
  · have ha := CfdpReceiver.acceptsData_iff.mp hacc
    rintro w₁ rfl
    have hb1 : Agrees (w.setRx (CfdpReceiver.see dpdu.chunkIndex)) := by
      simpa [Agrees] using hb
    have h1 : Durable ((w.setRx (CfdpReceiver.see dpdu.chunkIndex)).send
        (AckPdu.raw ⟨w.rx.state.transactionId, dpdu.chunkIndex⟩)).disk
        ((w.setRx (CfdpReceiver.see dpdu.chunkIndex)).send
        (AckPdu.raw ⟨w.rx.state.transactionId, dpdu.chunkIndex⟩)).log := by
      refine Durable.send (w := w.setRx (CfdpReceiver.see dpdu.chunkIndex)) h _ fun s ci hs _ he => ?_
      have hd' := hb.decode ha.active (hok.sane ha.active)
      obtain rfl : s = w.rx.state := Option.some.inj (hs.symm.trans hd')
      rw [← show dpdu.chunkIndex = ci from congrArg AckPdu.chunkIndex (AckPdu.raw_inj.mp he)]
      exact hd
    exact ⟨fun _ => ⟨h1, h1, hb1⟩, fun _ => ⟨h, hb1⟩⟩
  have ha := CfdpReceiver.acceptsData_iff.mp hacc
  have hsend : Durable (w.sendOption (w.rx.leaveNak dpdu.chunkIndex)).disk
      (w.sendOption (w.rx.leaveNak dpdu.chunkIndex)).log :=
    CfdpReceiver.sendOption_leaveNak (P := fun v => Durable v.disk v.log) h fun _ hp => h.sendOther hp
  refine ⟨fun pdu hp => Durable.sendOther (w := w.setRx _) h (CfdpReceiver.leaveNak_not_ack hp), ?_⟩
  rintro w₁ rfl
  have hb1 : Agrees ((w.sendOption (w.rx.leaveNak dpdu.chunkIndex)).setRx
      (CfdpReceiver.take dpdu)) := by
    simpa [Agrees] using hb
  refine ⟨fun _ => ?_, fun _ => ⟨hsend, hb1⟩⟩
  refine keepsDurable_flushChunk (w := (w.sendOption (w.rx.leaveNak dpdu.chunkIndex)).setRx
    (CfdpReceiver.take dpdu)) hsend ho hb1 ?_ ?_ ?_
  · simpa using ha.active
  · simpa using hok.sane ha.active
  · simpa using ha.chunk

theorem keepsDurable_eof (eof : EofPdu) (h : Durable w.disk w.log) (ho : o.JournalSmooth) (hb : Agrees w)
    (hok : w.rx.Ok) : KeepsDurable (handleEof env o eof) w := by
  refine wp_handleEof (fun _ => ⟨h, hb⟩) (fun _ _ => keepsDurable_checkCompletion h ho hb)
    fun hacc _ => ?_
  have ha := CfdpReceiver.active_of_acceptsEof hacc
  have hd := hb.decode ha (hok.sane ha)
  have hcommit := h.markEof hd
  refine ⟨fun _ => h.congr rfl, fun s hs => ?_, fun w' hu => ?_⟩
  · obtain rfl : s = w.rx.state := Option.some.inj (hs.symm.trans hd)
    exact hcommit
  obtain rfl : w' = w.commit .eofReceived w.rx.state.markEof := by
    rcases hu with ⟨t, rfl, hno⟩ | ⟨s, s', hs, hm, rfl⟩
    · cases hno ho.updates _ hd
    · obtain rfl : s = w.rx.state := Option.some.inj (hs.symm.trans hd)
      cases hm; rfl
  refine keepsDurable_checkCompletion hcommit ho ?_
  show _ = if w.rx.transferActive then _ else _
  rw [ha]; rfl

theorem keepsDurable_onPduReceived (h : Durable w.disk w.log) (ho : o.JournalSmooth) (hb : Agrees w)
    (hok : w.rx.Ok) (raw : Bytes) : KeepsDurable (onPduReceived env o raw) w := by
  unfold onPduReceived
  cases decodePdu raw with
  | none => exact (wp_pure ()).mpr ⟨h, hb⟩
  | some pdu =>
    cases pdu with
    | metadata metadata => exact keepsDurable_metadata metadata h ho hb
    | data dpdu => exact keepsDurable_data dpdu h ho hb hok
    | eof eof => exact keepsDurable_eof eof h ho hb hok
    | resumeQuery query =>
      have h1 := h.sendOther
        (not_isAck_info ⟨query.transactionId, firstMissingChunk w.rx query.transactionId⟩)
      exact wp_handleResumeQuery.mpr ⟨h1, h1, hb⟩

theorem keepsDurable_onBoot (h : Durable disk log) (ho : o.JournalSmooth) (garbage : JournalState) :
    KeepsDurable (onBoot env o) ⟨.construct garbage, disk, log⟩ := by
  refine wp_onBoot (fun hn => ⟨h, hn⟩) (fun hne hl => ?_) fun hne hl => ?_
  · obtain ⟨s, -, -, -, hs⟩ := h.journal.loads (w := ⟨.construct garbage, disk, log⟩) hne (ho _ rfl)
    rw [hs] at hl; cases hl
  · obtain ⟨s, -, hb, -, hs⟩ := h.journal.loads (w := ⟨.construct garbage, disk, log⟩) hne (ho _ rfl)
    rw [hs]
    rintro w₁ rfl
    exact ⟨fun _ => keepsDurable_checkCompletion h ho hb, fun _ => ⟨h, hb⟩⟩

/-! ## Crash points -/

/-- The journal updates of the whole run of `p`. -/
def World.updatesBy (w : World) (p : M Unit) : List JournalUpdate :=
  updatesOf ((p w).final.log.drop w.log.length)

theorem Node.finish_world {p : M Unit} {cut : Option Nat} {ws : List World} {n : Node}
    (hf : Node.finish (p w) cut = some (ws, n)) :
    ∃ x, (x ∈ (p w).passed ∨ x = (p w).final) ∧ n.disk = x.disk ∧ n.log = x.log := by
  cases cut with
  | none =>
    simp only [Node.finish] at hf
    split at hf <;> cases hf <;> exact ⟨_, .inr rfl, rfl, rfl⟩
  | some k =>
    simp only [Node.finish, Option.map_eq_some_iff] at hf
    obtain ⟨x, hx, hxn⟩ := hf
    cases hxn
    exact ⟨x, .inl (List.mem_of_getElem? hx), rfl, rfl⟩

/-- A handler, cut or not, only appends to the log. -/
theorem Logs.finish {p : M Unit} (hl : Logs p) {cut : Option Nat} {ws : List World} {n : Node}
    (hf : Node.finish (p w) cut = some (ws, n)) : w.log <+: n.log := by
  obtain ⟨x, hx, -, hlog⟩ := Node.finish_world hf
  rw [hlog]
  rcases hx with hx | rfl
  · exact ((hl w).2 x hx).1
  · exact (hl w).1

/-- So does a step. -/
theorem Node.step_log {n n' : Node} {a : Action} {ms : List Moment}
    (hs : Node.step env n a = some (ms, n')) :
    n.log <+: n'.log := by
  cases n with
  | up w =>
    cases a with
    | recv raw o cut =>
      simp only [Node.step, Option.map_eq_some_iff] at hs
      obtain ⟨⟨ws, n⟩, hf, hr⟩ := hs
      cases hr
      exact (logs_onPduReceived o env raw).finish hf
    | crash =>
      cases hs
      exact List.prefix_rfl
    | boot => cases hs
  | down disk log =>
    cases a with
    | recv => cases hs
    | crash => cases hs
    | boot garbage o cut =>
      simp only [Node.step, Option.map_eq_some_iff] at hs
      obtain ⟨⟨ws, n⟩, hf, hr⟩ := hs
      cases hr
      exact (logs_onBoot o env).finish hf

theorem KeepsDurable.durable {p : M Unit} (h : KeepsDurable p w) {x : World}
    (hx : x ∈ (p w).passed ∨ x = (p w).final) : Durable x.disk x.log := by
  rcases hx with hx | rfl
  · exact h.passed hx
  · cases hr : (p w).result with
    | ok a => exact (h.ok hr).1
    | error e => exact h.error hr

/-- **A crash leaves the journal after a prefix of the handler's updates.** -/
theorem journal_at_crash {p : M Unit} (hl : Logs p) (hw : Durable w.disk w.log)
    (h : KeepsDurable p w) {cut : Option Nat} {ws : List World} {n : Node}
    (hf : Node.finish (p w) cut = some (ws, n)) :
    ∃ us, us <+: w.updatesBy p ∧ JournalState.decode n.disk.stateBin =
      applyAll us (JournalState.decode w.disk.stateBin) := by
  obtain ⟨x, hx, hdisk, -⟩ := Node.finish_world hf
  have hd := h.durable hx
  have hgrow : w.log <+: x.log ∧ x.log <+: (p w).final.log := by
    rcases hx with hx | rfl
    · exact (hl w).2 x hx
    · exact ⟨(hl w).1, List.prefix_rfl⟩
  obtain ⟨⟨l₁, h1⟩, ⟨l₂, h2⟩⟩ := hgrow
  have hall : w.updatesBy p = updatesOf l₁ ++ updatesOf l₂ := by
    unfold World.updatesBy
    rw [← h2, ← h1, List.append_assoc, List.drop_left, updatesOf_append]
  refine ⟨updatesOf l₁, ⟨_, hall.symm⟩, ?_⟩
  rw [hdisk, hd.replayed, ← h1, updatesOf_append, applyAll_append, ← hw.replayed]

/-! ## Runs -/

/-- The surroundings in which every journal call succeeds; any bytes may arrive. -/
def JournalWorks (_ : Node) (a : Action) : Prop := a.Within (fun _ => True) Oracle.JournalSmooth

def Node.Durable : Node → Prop
  | .up w => Cfdp.Durable w.disk w.log ∧ Agrees w ∧ w.rx.Ok
  | .down disk log => Cfdp.Durable disk log

theorem Node.Durable.step {n n' : Node} {a : Action} {ms : List Moment} (h : n.Durable)
    (ha : JournalWorks n a) (hs : Node.step env n a = some (ms, n')) :
    n'.Durable ∧ ∀ w, .passed w ∈ ms → Cfdp.Durable w.disk w.log := by
  refine Node.inv_step (fun w raw o cut hw ha => ?_) (fun w hw => hw.1)
    (fun disk log garbage o cut hd ha => ?_) h ha hs
  · refine wp_mono (wp_and (keepsDurable_onPduReceived hw.1 ha.2 hw.2.1 hw.2.2 raw) (wp_reply raw))
      (fun _ hx => ⟨hx.1, hx.1⟩) (fun _ _ hx => ⟨hx.1.1, hx.1.1, hx.1.2, ?_⟩) (fun _ _ hx => hx.1)
    rw [hx.2.1]; exact hw.2.2.reply _ raw
  · refine wp_mono (wp_and (keepsDurable_onBoot hd ha garbage) replies_onBoot)
      (fun _ hx => ⟨hx.1, hx.1⟩) (fun _ _ hx => ⟨hx.1.1, hx.1.1, hx.1.2, ?_⟩) (fun _ _ hx => hx.1)
    rw [hx.2.1]
    exact CfdpReceiver.Ok.replyBoot (w := ⟨.construct garbage, disk, log⟩) garbage hd.journal rfl _

theorem Node.Fresh.durable {n : Node} (h : n.Fresh) : n.Durable := by
  cases n with
  | up w => exact h.elim
  | down disk log =>
    obtain ⟨hb, rfl⟩ := h
    refine ⟨fun c hc => (by rw [hb] at hc; cases hc), by rw [hb]; rfl, fun s hs => ?_⟩
    rw [hb] at hs; cases hs

theorem Run.durable {ok : Node → Action → Prop} {n n' : Node} {hist : List Moment} (hn : n.Fresh)
    (hok : ∀ n a, ok n a → JournalWorks n a) (h : Node.Run env ok n hist n') :
    n'.Durable ∧ ∀ w, .passed w ∈ hist → Cfdp.Durable w.disk w.log := by
  have := h.inv_moments (I := Node.Durable)
    (J := fun m => ∀ w, m = .passed w → Cfdp.Durable w.disk w.log) hn.durable ?_
  · exact ⟨this.1, fun w hw => this.2 _ hw w rfl⟩
  · intro n a ms n' hi ha hs
    obtain ⟨h1, h2⟩ := hi.step (hok n a ha) hs
    exact ⟨h1, fun m hm w hw => h2 w (hw ▸ hm)⟩

/-- The journal is absent or decodes completely. -/
def Disk.Readable (disk : Disk) : Prop :=
  disk.stateBin = none ∨ ∃ s, JournalState.decode disk.stateBin = some s

theorem Durable.readable (h : Durable disk log) : disk.Readable := by
  cases hb : disk.stateBin with
  | none => exact .inl hb
  | some c =>
    obtain ⟨s, rfl, hlen, -⟩ := h.journal c hb
    exact .inr ⟨s, by rw [hb, JournalState.decode_encode s hlen]⟩

theorem Agrees.active_iff (h : Agrees w) :
    (w.rx.transferActive = true ↔ w.disk.stateBin ≠ none) := by
  unfold Agrees at h
  cases ha : w.rx.transferActive <;> simp [ha] at h <;> simp [h]

/-- The journal recovered at boot is the record, with every acknowledged chunk marked. -/
theorem Durable.recovered (h : Durable disk log) (ho : o.JournalSmooth) (hne : disk.stateBin ≠ none)
    {garbage : JournalState} {ms : List Moment}
    (hs : Node.step env (.down disk log) (.boot garbage o none) = some (ms, .up w)) :
    ∀ ci, ci ≠ uint32Max → .sent (AckPdu.raw ⟨w.rx.state.transactionId, ci⟩) ∈ sinceCreate log →
      w.rx.state.isDone ci = true := by
  obtain ⟨s, -, -, hd, hl⟩ :=
    h.journal.loads (w := ⟨.construct garbage, disk, log⟩) hne (ho _ rfl)
  simp only [Node.step, Option.map_eq_some_iff] at hs
  obtain ⟨⟨ws, n⟩, hf, hr⟩ := hs
  cases hr
  have hrx := (Node.finish_up replies_onBoot hf).1
  have hst : w.rx.state = s := by
    rw [hrx, World.loaded, if_neg hne, hl]
    simp only [CfdpReceiver.replyBoot]
    split
    · rw [CfdpReceiver.complete_state]; rfl
    · rfl
  rw [hst]
  exact h.acks s hd

/-- **Journal and memory agree, at every crash point**, in runs where journal calls
succeed, whatever bytes arrive:
* the journal is absent or decodes, at every moment;
* between PDUs it exists exactly while a transfer is active, and is the record in memory;
* a step, cut by a crash or not, leaves the journal after a prefix of the updates of its handler;
* a boot that finds a journal recovers a record in which every chunk acknowledged since the
  journal was created is marked. -/
theorem run_journal {n n' : Node} {hist : List Moment} (hn : n.Fresh)
    (h : Node.Run env JournalWorks n hist n') :
    ((∀ w, .passed w ∈ hist → w.disk.Readable) ∧ n'.disk.Readable) ∧
    (∀ w, n' = .up w → (w.rx.transferActive = true ↔ w.disk.stateBin ≠ none) ∧
      ∀ s, JournalState.decode w.disk.stateBin = some s → s = w.rx.state) ∧
    ((∀ w raw o cut ms n'', n' = .up w → o.JournalSmooth →
        Node.step env n' (.recv raw o cut) = some (ms, n'') →
        ∃ us, us <+: w.updatesBy (onPduReceived env o raw) ∧
          JournalState.decode n''.disk.stateBin =
            applyAll us (JournalState.decode w.disk.stateBin)) ∧
      ∀ disk log garbage o cut ms n'', n' = .down disk log → o.JournalSmooth →
        Node.step env n' (.boot garbage o cut) = some (ms, n'') →
        ∃ us, us <+: World.updatesBy ⟨.construct garbage, disk, log⟩ (onBoot env o) ∧
          JournalState.decode n''.disk.stateBin =
            applyAll us (JournalState.decode disk.stateBin)) ∧
    ∀ disk log garbage o ms w, n' = .down disk log → o.JournalSmooth → disk.stateBin ≠ none →
      Node.step env n' (.boot garbage o none) = some (ms, .up w) →
      ∀ ci, ci ≠ uint32Max →
        .sent (AckPdu.raw ⟨w.rx.state.transactionId, ci⟩) ∈ sinceCreate log →
        w.rx.state.isDone ci = true := by
  obtain ⟨hn', hw⟩ := Run.durable hn (fun _ _ h => h) h
  have hdur : Durable n'.disk n'.log := by
    cases n' with
    | up w => exact hn'.1
    | down disk log => exact hn'
  refine ⟨⟨fun w hm => (hw w hm).readable, hdur.readable⟩, ?_, ⟨?_, ?_⟩, ?_⟩
  · rintro w rfl
    refine ⟨hn'.2.1.active_iff, fun s hs => ?_⟩
    have ha : w.rx.transferActive = true := by
      rw [hn'.2.1.active_iff]
      intro hb
      rw [hb] at hs; cases hs
    rw [hn'.2.1.decode ha (hn'.2.2.sane ha)] at hs
    exact (Option.some.inj hs).symm
  · rintro w raw o cut ms n'' rfl ho hs
    simp only [Node.step, Option.map_eq_some_iff] at hs
    obtain ⟨⟨ws, n⟩, hf, hr⟩ := hs
    cases hr
    exact journal_at_crash (logs_onPduReceived o env raw) hn'.1
      (keepsDurable_onPduReceived hn'.1 ho hn'.2.1 hn'.2.2 raw) hf
  · rintro disk log garbage o cut ms n'' rfl ho hs
    simp only [Node.step, Option.map_eq_some_iff] at hs
    obtain ⟨⟨ws, n⟩, hf, hr⟩ := hs
    cases hr
    exact journal_at_crash (w := ⟨.construct garbage, disk, log⟩) (logs_onBoot o env) hn'
      (keepsDurable_onBoot hn' ho garbage) hf
  · rintro disk log garbage o ms w rfl ho hne hs
    exact Durable.recovered hn' ho hne hs

/-- A chunk acknowledged before a crash is done after the boot. -/
theorem run_journal_small : ∃ hist n' ms w, Node.Run sampleEnv JournalWorks unusedNode hist n' ∧
    Node.step sampleEnv n' powerOn = some (ms, .up w) ∧ w.rx.state.isDone 0 = true := by
  have hrun : (sampleRun [powerOn, deliver ((Transfer.small [0x61, 0x62]).metadataRaw sampleEnv.crc32),
      deliver ((Transfer.small [0x61, 0x62]).packetRaw 0 0), .crash]).any (fun r =>
        r.2.world?.isNone && decide (r.2.disk.stateBin ≠ none) && (r.2.next sampleEnv powerOn).any fun w =>
          decide (.sent (AckPdu.raw ⟨w.rx.state.transactionId, 0⟩) ∈ sinceCreate r.2.log)) = true := by
    decide +kernel
  simp only [Option.any_eq_true, Bool.and_eq_true, Option.isNone_iff_eq_none, Node.world?_eq_none,
    decide_eq_true_eq, Node.next_eq_some, Prod.exists] at hrun
  obtain ⟨hist, n', hr, ⟨⟨disk, log, rfl⟩, hdisk⟩, w, ⟨ms, hstep⟩, hsent⟩ := hrun
  have hok : Node.Run sampleEnv JournalWorks unusedNode hist (.down disk log) := by
    refine Machine.exec_run hr fun a ha s _ _ => ?_
    simp only [List.mem_cons, List.not_mem_nil, or_false] at ha
    rcases ha with rfl | rfl | rfl | rfl
    · exact smooth_noFaults.journal
    · exact ⟨trivial, smooth_noFaults.journal⟩
    · exact ⟨trivial, smooth_noFaults.journal⟩
    · trivial
  obtain ⟨-, -, -, hboot⟩ := run_journal unusedNode_fresh hok
  exact ⟨hist, .down disk log, ms, w, hok, hstep, hboot disk log .blank noFaults ms w rfl
    smooth_noFaults.journal hdisk hstep 0 (by decide) hsent⟩

end

end Cfdp
