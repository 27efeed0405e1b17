import Cfdp.Survival
import Cfdp.Transcript

/-!
# Files that stay

A received file changes only while there is a record that names it and has a chunk left to
write; otherwise the record is closed for it (`JournalState.Closed`). So a file that no accepted
Metadata names is never touched, and from a final ACK on every file stays as it is until a
Metadata that names it is accepted, whatever bytes arrive, whatever fails and wherever crashes
strike.
-/

namespace Cfdp

open Crash Prog Machine

/-- If the record names `path`, all its chunks are done. -/
def JournalState.Closed (path : Bytes) (s : JournalState) : Prop :=
  s.recvFilePath = path → s.computeMissingChunks = []

/-- Neither the record in memory nor the one in the journal has a chunk to write to `path`. -/
def Node.Closed (path : Bytes) : Node → Prop
  | .up w => (w.rx.transferActive = true → w.rx.state.Closed path) ∧
      JournalAll (JournalState.Closed path) w.disk
  | .down disk _ => JournalAll (JournalState.Closed path) disk

/-- A Metadata that is accepted names another file. -/
def Node.Leaves (env : Env) (path : Bytes) : Node → Action → Prop
  | .up w, .recv raw o _ => ∀ m, decodePdu raw = some (.metadata m) → w.rx.accepts m = true →
      destString env o m ≠ path
  | _, _ => True

instance (env : Env) (path : Bytes) : (n : Node) → (a : Action) → Decidable (n.Leaves env path a)
  | .up w, .recv raw o _ =>
    have : Decidable (∀ m, decodePdu raw = some (.metadata m) → w.rx.accepts m = true →
        destString env o m ≠ path) :=
      match hd : decodePdu raw with
      | some (.metadata m) => decidable_of_iff (w.rx.accepts m = true → destString env o m ≠ path)
          ⟨fun h m' hm' => by cases hm'; exact h, fun h => h m rfl⟩
      | some (.data _) | some (.eof _) | some (.resumeQuery _) | none => isTrue fun _ h => by cases h
    this
  | .up _, .crash | .up _, .boot _ _ _ | .down _ _, .recv _ _ _ | .down _ _, .crash
  | .down _ _, .boot _ _ _ => isTrue trivial

section

variable {env : Env} {o : Oracle} {w : World} {raw path : Bytes} {d : DataPdu} {n n' n₁ n₂ : Node}
  {a : Action} {ms hist hist' : List Moment} {files : Bytes → Option Bytes} {l l' l₁ l₂ : List Event}
  {t : UInt32}

theorem marked_closed (path : Bytes) : Marked (JournalState.Closed path) :=
  ⟨fun s ci h hp => (s.later_markDone ci).finished (h hp), fun s h hp => s.later_markEof.finished (h hp)⟩

theorem closed_start {m : MetadataPdu} (s : JournalState) (h : destString env o m ≠ path) :
    (s.start env o m).Closed path := by
  intro hp
  rw [JournalState.recvFilePath_start] at hp
  exact absurd hp h

/-- A chunk that is not done is not written to `path`. -/
theorem World.Flushes.dest_ne (h : w.Flushes raw d)
    (hc : w.rx.transferActive = true → w.rx.state.Closed path) : path ≠ w.dest := by
  rintro rfl
  have ha := CfdpReceiver.acceptsData_iff.mp h.2.accepts
  have hall := (JournalState.computeMissingChunks_eq_nil _).mp (hc ha.active rfl)
  have hdone := hall d.chunkIndex (UInt32.lt_iff_toNat_lt.mpr ha.chunk)
  rw [h.2.open_] at hdone
  cases hdone

theorem World.Flushing.leaves (h : w.Flushing o d files) (hne : path ≠ w.dest) :
    files path = w.disk.files path := by
  obtain ⟨c, -, rfl⟩ := h
  exact World.withDest_of_ne hne c

/-- A PDU leaves the file alone. -/
theorem leaves_onPduReceived (hc : w.rx.transferActive = true → w.rx.state.Closed path) (raw : Bytes) :
    wp (onPduReceived env o raw) (fun x => x.disk.files path = w.disk.files path)
      (fun _ x => x.disk.files path = w.disk.files path)
      (fun _ x => x.disk.files path = w.disk.files path) w := by
  refine wp_mono (wp_files raw) ?_ ?_ ?_
  · rintro x (hx | ⟨d, hf, hx⟩)
    · rw [hx]
    · exact hx.leaves (hf.dest_ne hc)
  · rintro - x (⟨hx, -⟩ | ⟨d, hf, hx⟩)
    · rw [hx]
    · exact hx.flushing.leaves (hf.dest_ne hc)
  · rintro - x ⟨d, hf, hx, -⟩
    exact hx.leaves (hf.dest_ne hc)

/-- A step leaves the file alone, and the records closed. -/
theorem Node.Closed.step (hn : n.Closed path) (ha : n.Leaves env path a)
    (hs : Node.step env n a = some (ms, n')) :
    (n'.Closed path ∧ n'.disk.files path = n.disk.files path) ∧
      ∀ w, .passed w ∈ ms → w.disk.files path = n.disk.files path := by
  generalize hc : n.disk.files path = c
  refine Node.inv_step (I := fun n => n.Closed path ∧ n.disk.files path = c)
    (J := fun w => w.disk.files path = c) (fun w raw o cut hw ha => ?_)
    (fun w hw => ⟨hw.1.2, hw.2⟩) (fun disk log garbage o cut hd _ => ?_) ⟨hn, hc⟩ ha hs
  · obtain ⟨⟨hact, hall⟩, hc⟩ := hw
    have hstart : ∀ m, decodePdu raw = some (.metadata m) → w.rx.accepts m = true →
        (w.rx.state.start env o m).Closed path := fun m hd hacc => closed_start _ (ha m hd hacc)
    have hj := keepsJournal_onPduReceived env o raw (marked_closed path) hall hstart
    have hfile (x : World) (hx : x.disk.files path = w.disk.files path) : x.disk.files path = c :=
      hx.trans hc
    refine wp_mono (wp_and (wp_and hj (wp_reply raw)) (leaves_onPduReceived hact raw))
      (fun x h => ⟨hfile x h.2, h.1.1, hfile x h.2⟩) (fun _ x h => ?_)
      fun _ x h => ⟨h.1.1, hfile x h.2⟩
    obtain ⟨⟨hjx, hrx, -⟩, hx⟩ := h
    refine ⟨hfile x hx, ⟨fun ha' => ?_, hjx⟩, hfile x hx⟩
    rw [hrx] at ha' ⊢
    exact CfdpReceiver.reply_record (marked_closed path) hact hstart ha'
  · generalize hw : (⟨.construct garbage, disk, log⟩ : World) = w
    have hdisk : w.disk = disk := by rw [← hw]
    obtain ⟨hall, hc⟩ := hd
    have hall' : JournalAll (JournalState.Closed path) w.disk := by
      rw [hdisk]
      exact hall
    have hfile (x : World) (hx : x.disk.files = w.disk.files) : x.disk.files path = c := by
      rw [hx, hdisk]
      exact hc
    refine wp_mono (wp_and (wp_and (keepsJournal_onBoot env o hall') replies_onBoot) keepsFiles_onBoot)
      (fun x h => ⟨hfile x h.2, h.1.1, hfile x h.2⟩) (fun _ x h => ?_) fun _ x h => h.2.elim
    obtain ⟨⟨hjx, hrx, -⟩, hx⟩ := h
    refine ⟨hfile x hx, ⟨fun ha' => ?_, hjx⟩, hfile x hx⟩
    rw [hrx] at ha' ⊢
    exact CfdpReceiver.replyBoot_record hall' (by rw [← hw]) ha'

theorem Run.closed (hn : n.Closed path) (h : Node.Run env (Node.Leaves env path) n hist n') :
    n'.disk.files path = n.disk.files path ∧
      ∀ w, .passed w ∈ hist → w.disk.files path = n.disk.files path := by
  generalize hc : n.disk.files path = c
  have hinv := h.inv_moments (I := fun n => n.Closed path ∧ n.disk.files path = c)
    (J := fun m => ∀ w, m = .passed w → w.disk.files path = c) ⟨hn, hc⟩ ?_
  · exact ⟨hinv.1.2, fun w hw => hinv.2 _ hw w rfl⟩
  · rintro n a ms n' ⟨hi, hc⟩ ha hs
    obtain ⟨⟨hi', hfile⟩, hms⟩ := hi.step ha hs
    exact ⟨⟨hi', hfile.trans hc⟩, fun m hm w hw => (hms w (hw ▸ hm)).trans hc⟩

theorem Node.Fresh.closed (h : n.Fresh) (path : Bytes) : n.Closed path := by
  cases n with
  | up w => exact h.elim
  | down disk log =>
    intro c hc
    rw [h.1] at hc
    cases hc

/-- **A file that no accepted Metadata names is never touched**, whatever bytes arrive, whatever
calls fail and wherever crashes strike. -/
theorem run_untouched (hn : n.Fresh) (h : Node.Run env (Node.Leaves env path) n hist n') :
    n'.disk.files path = n.disk.files path ∧
      ∀ w, .passed w ∈ hist → w.disk.files path = n.disk.files path :=
  Run.closed (hn.closed path) h

/-- A file in the directory of the receiver. -/
def notesPath : Bytes := sampleEnv.recvDir ++ [0x2F, 0x6E]

/-- A machine on which it exists. -/
def notesNode : Node := .down ⟨none, none, fun p => if p = notesPath then some [0x21] else none⟩ []

/-- Another file is received beside it. -/
theorem run_untouched_small : ∃ hist n,
    Node.Run sampleEnv (Node.Leaves sampleEnv notesPath) notesNode hist n ∧
      n.disk.files (twoBytes.path sampleEnv) = some [0x61, 0] ∧ n.disk.files notesPath = some [0x21] := by
  let as := [powerOn, deliver (twoBytes.metadataRaw sampleEnv.crc32), deliver (twoBytes.packetRaw 0 0)]
  have hrun : (Machine.exec (Node.step sampleEnv) notesNode as).any (fun r =>
      decide (r.2.disk.files (twoBytes.path sampleEnv) = some [0x61, 0])) = true := by
    decide +kernel
  simp only [Option.any_eq_true, Prod.exists, decide_eq_true_eq] at hrun
  obtain ⟨hist, n, hr, hfile⟩ := hrun
  have hok : Node.Run sampleEnv (Node.Leaves sampleEnv notesPath) notesNode hist n :=
    Machine.exec_run_of_allows hr (by decide +kernel)
  have hfresh : notesNode.Fresh := ⟨rfl, rfl⟩
  have hkept := (run_untouched hfresh hok).1
  exact ⟨hist, n, hok, hfile, hkept⟩

/-! ## After a final ACK -/

/-- A journal whose chunks are all done stays so, until another is created. -/
theorem journalOf_finished (hno : ∀ s, .journal (.create s) ∉ l')
    (hj : ∀ s, journalOf l = some s → s.computeMissingChunks = []) :
    ∀ s, journalOf (l ++ l') = some s → s.computeMissingChunks = [] := by
  induction l' generalizing l with
  | nil =>
    rw [List.append_nil]
    exact hj
  | cons e es ih =>
    rw [journalOf_append_cons]
    refine ih (fun s h => hno s (List.mem_cons_of_mem e h)) fun s hs => ?_
    cases e with
    | sent pdu =>
      rw [journalOf_append_sent] at hs
      exact hj s hs
    | journal u =>
      rw [journalOf_append_journal] at hs
      cases u with
      | create s₁ => exact absurd List.mem_cons_self (hno s₁)
      | chunkDone ci =>
        obtain ⟨s₁, hs₁, rfl⟩ := Option.map_eq_some_iff.mp hs
        exact (s₁.later_markDone ci).finished (hj s₁ hs₁)
      | eofReceived =>
        obtain ⟨s₁, hs₁, rfl⟩ := Option.map_eq_some_iff.mp hs
        exact s₁.later_markEof.finished (hj s₁ hs₁)
      | remove => cases hs

/-- A final ACK closes the records for every file. -/
theorem Run.finished (hn : n.Fresh) (h : Node.Run env JournalWorks n hist n')
    (hl : n'.log = l₁ ++ .sent (AckPdu.raw ⟨t, uint32Max⟩) :: l₂)
    (hno : ∀ s, .journal (.create s) ∉ l₂) (path : Bytes) : n'.Closed path := by
  obtain ⟨hreplays, hdur⟩ := Run.replays hn h
  have hsent := hreplays.explained l₁ _ l₂ hl
  have hdone : ∀ s, JournalState.decode n'.disk.stateBin = some s → s.computeMissingChunks = [] := by
    rw [hreplays.replayed, hl, journalOf_append_cons]
    refine journalOf_finished hno fun s hs => ?_
    rw [journalOf_append_sent] at hs
    exact hsent.of_final hs
  have hall {disk : Disk} {log : List Event} (hd : Durable disk log)
      (hdone : ∀ s, JournalState.decode disk.stateBin = some s → s.computeMissingChunks = []) :
      JournalAll (JournalState.Closed path) disk := by
    intro c hc
    obtain ⟨s, rfl, hlen, -⟩ := hd.journal c hc
    refine ⟨s, rfl, hlen, fun _ => hdone s ?_⟩
    rw [hc, JournalState.decode_encode s hlen]
  cases n' with
  | up w =>
    obtain ⟨hd, hag, hok⟩ := hdur
    exact ⟨fun ha _ => hdone _ (hag.decode ha (hok.sane ha)), hall hd hdone⟩
  | down disk log => exact hall hdur hdone

/-- **A file that was confirmed stays**: from a final ACK on, no received file changes until a
Metadata that names it is accepted, whatever bytes arrive, whatever calls fail and wherever
crashes strike. -/
theorem run_confirmed (hn : n.Fresh) (h : Node.Run env JournalWorks n hist n₁)
    (hl : n₁.log = l₁ ++ .sent (AckPdu.raw ⟨t, uint32Max⟩) :: l₂)
    (hno : ∀ s, .journal (.create s) ∉ l₂) (h' : Node.Run env (Node.Leaves env path) n₁ hist' n₂) :
    n₂.disk.files path = n₁.disk.files path ∧
      ∀ w, .passed w ∈ hist' → w.disk.files path = n₁.disk.files path :=
  Run.closed (Run.finished hn h hl hno path) h'

/-- A packet of another file with the same transaction, before and after a crash, does nothing. -/
theorem run_confirmed_small : ∃ hist hist' n₁ n₂,
    Node.Run sampleEnv JournalWorks unusedNode hist n₁ ∧
      Node.Run sampleEnv (Node.Leaves sampleEnv ((Transfer.small [0x61]).path sampleEnv)) n₁ hist' n₂ ∧
        n₁.disk.files ((Transfer.small [0x61]).path sampleEnv) = some [0x61] ∧
          n₂.disk.files ((Transfer.small [0x61]).path sampleEnv) = some [0x61] := by
  let x := Transfer.small [0x61]
  let bs := [deliver ((Transfer.small [0x62]).packetRaw 0 0), .crash, powerOn,
    deliver ((Transfer.small [0x62]).packetRaw 0 0)]
  let raws := [x.metadataRaw sampleEnv.crc32, x.packetRaw 0 0, x.eofPdu sampleEnv.crc32]
  have hrun : (sampleRun (powerOn :: raws.map deliver)).any (fun r =>
        decide ([.sent (AckPdu.raw ⟨1, uint32Max⟩), .journal .remove] <:+ r.2.log) &&
          decide (r.2.disk.files (x.path sampleEnv) = some [0x61]) &&
          Machine.allows (Node.step sampleEnv) (Node.Leaves sampleEnv (x.path sampleEnv)) r.2 bs &&
          (Machine.exec (Node.step sampleEnv) r.2 bs).isSome) = true := by
    decide +kernel
  simp only [Option.any_eq_true, Prod.exists, Bool.and_eq_true, decide_eq_true_eq,
    Option.isSome_iff_exists] at hrun
  obtain ⟨hist, n₁, hr, ⟨⟨⟨l, hl⟩, hfile⟩, hallows⟩, hist', n₂, hr'⟩ := hrun
  have hok := run_deliveries hr
  have hok' : Node.Run sampleEnv (Node.Leaves sampleEnv (x.path sampleEnv)) n₁ hist' n₂ :=
    Machine.exec_run_of_allows hr' hallows
  have hno : ∀ s, .journal (.create s) ∉ [Event.journal .remove] := by simp
  have hkept := (run_confirmed unusedNode_fresh hok hl.symm hno hok').1
  exact ⟨hist, hist', n₁, n₂, hok, hok', hfile, hkept.trans hfile⟩

end

end Cfdp
