import Cfdp.Emission
import Cfdp.JournalFile
import Cfdp.Lib.TwoRuns

/-!
# A journal that is rejected

A receiver that boots from a journal its loader rejects, next to one that boots without
a journal. The loader has overwritten part of `state_` by then. While no transfer has
been accepted the handlers look at one field of it: a Metadata with the transaction id 0
is taken for one already finished, `last_acked_id_` being 0, and is answered with
`state_.transaction_id`. Once a Metadata is accepted the records are the same, but for
bytes behind the strings of `filename` and `dest_path` (`Same`), and so is all that is
transmitted and stored (`Linked`).
-/

namespace Cfdp

open Crash Prog LittleEndian

/-! ## Records and journals that cannot be told apart -/

/-- The record with other name fields. -/
def JournalState.withNames (s : JournalState) (filename : CharArray 256) (destPath : CharArray 512) :
    JournalState := { s with filename, destPath }

/-- Records that agree on every field but the names, and on the path. -/
structure JournalState.Same (s t : JournalState) : Prop where
  eq : t = s.withNames t.filename t.destPath
  path : t.recvFilePath = s.recvFilePath

/-- Files that hold no journal, or the same one. -/
def SameJournal (a b : Option Bytes) : Prop :=
  (JournalState.decode a = none ∧ JournalState.decode b = none) ∨
    ∃ s t, JournalState.decode a = some s ∧ JournalState.decode b = some t ∧ s.Same t

/-- Two worlds with the same fields, `state_` apart, files and transmissions, with records
related by `S` and journals that cannot be told apart. -/
structure World.Linked (S : JournalState → JournalState → Prop) (w v : World) : Prop where
  rx : v.rx = { w.rx with state := v.rx.state }
  state : S w.rx.state v.rx.state
  files : v.disk.files = w.disk.files
  sent : v.sent = w.sent
  journal : SameJournal w.disk.stateBin v.disk.stateBin

section

variable {S : JournalState → JournalState → Prop} {w v x y : World} {s t : JournalState} {o : Oracle}
  {env : Env} {a b : Option Bytes}

theorem JournalState.length_lt_of_decode {file : Option Bytes}
    (h : JournalState.decode file = some s) : s.chunkDone.length < 2 ^ 32 := by
  cases file with
  | none => cases h
  | some c =>
    by_cases hw : JournalState.Whole c
    · rw [JournalState.decode, JournalState.readFromDisk_whole hw true] at h
      cases h
      have hcount : JournalState.flagCount c < 2 ^ 32 := UInt32.toNat_lt _
      show (((c.drop 801).take (JournalState.flagCount c)).map (· != 0)).length < 2 ^ 32
      rw [List.length_map, List.length_take]
      omega
    · have hshort := JournalState.readFromDisk_short hw true JournalState.blank
      rw [JournalState.decode] at h
      generalize JournalState.readFromDisk true (some c) JournalState.blank = l at h hshort
      obtain ⟨good, s'⟩ := l
      cases hshort
      cases h

theorem JournalState.Same.markDone (h : s.Same t) (ci : UInt32) :
    (s.markDone ci).Same (t.markDone ci) where
  eq := by
    conv => lhs; rw [h.eq]
    rfl
  path := h.path

theorem JournalState.Same.markEof (h : s.Same t) : s.markEof.Same t.markEof where
  eq := by
    conv => lhs; rw [h.eq]
    rfl
  path := h.path

theorem JournalState.Same.chunkDone (h : s.Same t) : t.chunkDone = s.chunkDone := by
  rw [h.eq]
  rfl

/-- A transfer started from any two records. -/
theorem JournalState.same_start (env : Env) (o : Oracle) (m : MetadataPdu) (s t : JournalState) :
    (s.start env o m).Same (t.start env o m) where
  eq := rfl
  path := by rw [JournalState.recvFilePath_start, JournalState.recvFilePath_start]

theorem SameJournal.encode (h : s.Same t) (hs : s.chunkDone.length < 2 ^ 32) :
    SameJournal (some s.encode) (some t.encode) :=
  .inr ⟨s, t, JournalState.decode_encode s hs, JournalState.decode_encode t (by rwa [h.chunkDone]), h⟩

theorem sameJournal_none : SameJournal none none := .inl ⟨rfl, rfl⟩

/-! ## Journal calls -/

/-- Whether an atomic write fails. -/
def Oracle.loses (o : Oracle) : Bool := o.fails .tmpOpen || o.fails .tmpWrite || o.fails .rename

theorem atomicWrite_outcome (o : Oracle) (u : JournalUpdate) (s : JournalState) (w : World) :
    wp (Journal.atomicWrite o u s) (fun _ => True) (fun _ x => w.Alike x ∧
      x.disk.stateBin = if o.loses then w.disk.stateBin else some s.encode) (fun _ _ => False) w := by
  unfold Oracle.loses
  unfold Journal.atomicWrite
  rw [wp_ite]
  refine ⟨fun h => ?_, fun h => ?_⟩
  · rw [wp_pure, h]
    exact ⟨⟨rfl, rfl, rfl⟩, rfl⟩
  rw [Bool.not_eq_true] at h
  rw [wp_bind, wp_step, wp_ite, h]
  refine ⟨trivial, fun h' => ?_, fun h' => ?_⟩
  · rw [wp_bind]
    refine Journal.wp_writeTmp rfl (fun _ => trivial) ?_
    rw [wp_pure, h']
    exact ⟨⟨rfl, rfl, rfl⟩, rfl⟩
  · rw [Bool.not_eq_true] at h'
    rw [wp_bind]
    refine Journal.wp_writeTmp rfl (fun _ => trivial) ?_
    rw [wp_ite, h']
    refine ⟨fun h'' => ?_, fun h'' => ?_⟩
    · rw [wp_pure, h'']
      exact ⟨⟨rfl, rfl, rfl⟩, rfl⟩
    · rw [Bool.not_eq_true] at h''
      rw [wp_bind, wp_step, wp_pure, h'']
      exact ⟨trivial, ⟨rfl, World.sent_commit w u s, rfl⟩, rfl⟩

/-- What an update writes, if anything. -/
def updated (o : Oracle) (f : JournalState → Option JournalState) (file : Option Bytes) :
    Option Bytes :=
  if o.fails .journalOpen || o.loses then file
  else
    match (JournalState.decode file).bind f with
    | none => file
    | some s => some s.encode

theorem update_outcome (o : Oracle) (u : JournalUpdate) (f : JournalState → Option JournalState)
    (w : World) : wp (Journal.update o u f) (fun _ => True) (fun _ x => w.Alike x ∧
      x.disk.stateBin = updated o f w.disk.stateBin) (fun _ _ => False) w := by
  unfold updated
  rw [Journal.update, wp_bind, wp_get, wp_ite]
  refine ⟨fun h => ?_, fun h => ?_⟩
  · rw [wp_pure, h]
    exact ⟨⟨rfl, rfl, rfl⟩, rfl⟩
  rw [Bool.not_eq_true] at h
  rw [h, Bool.false_or]
  cases hd : JournalState.decode w.disk.stateBin with
  | none =>
    rw [wp_pure]
    exact ⟨⟨rfl, rfl, rfl⟩, by split <;> rfl⟩
  | some s =>
    cases hf : f s with
    | none =>
      simp only [hf, wp_pure, Option.bind_some]
      exact ⟨⟨rfl, rfl, rfl⟩, by split <;> rfl⟩
    | some s' =>
      simp only [hf, Option.bind_some]
      exact atomicWrite_outcome o u s' w

theorem remove_outcome (o : Oracle) (w : World) : wp (Journal.remove o) (fun _ => True)
    (fun _ x => w.Alike x ∧
      x.disk.stateBin = if o.fails .journalRemove then w.disk.stateBin else none)
    (fun _ _ => False) w := by
  unfold Journal.remove
  rw [wp_bind, wp_get, wp_ite]
  refine ⟨fun h => ?_, fun h => ?_⟩
  · rw [wp_pure]
    refine ⟨⟨rfl, rfl, rfl⟩, ?_⟩
    rcases Bool.or_eq_true_iff.mp h with h | h
    · rw [if_pos h]
    · rw [Option.isNone_iff_eq_none.mp h]
      split <;> rfl
  · simp only [Bool.or_eq_true, not_or, Bool.not_eq_true] at h
    rw [wp_bind, wp_step, wp_pure, h.1]
    exact ⟨trivial, ⟨rfl, World.sent_dropJournal w, rfl⟩, rfl⟩

theorem World.Linked.journaled (h : w.Linked S v) (hx : w.Alike x) (hy : v.Alike y)
    (hj : SameJournal x.disk.stateBin y.disk.stateBin) : x.Linked S y := by
  obtain ⟨hx1, hx2, hx3⟩ := hx
  obtain ⟨hy1, hy2, hy3⟩ := hy
  exact ⟨by rw [hy1, hx1]; exact h.rx, by rw [hy1, hx1]; exact h.state,
    by rw [hy3, hx3]; exact h.files, by rw [hy2, hx2]; exact h.sent, hj⟩

/-- Both journals are removed, or both calls fail. -/
theorem World.Linked.removed {failed : Bool} (h : w.Linked S v)
    (hx : w.Alike x ∧ x.disk.stateBin = if failed then w.disk.stateBin else none)
    (hy : v.Alike y ∧ y.disk.stateBin = if failed then v.disk.stateBin else none) : x.Linked S y := by
  refine h.journaled hx.1 hy.1 ?_
  rw [hx.2, hy.2]
  cases failed with
  | true => exact h.journal
  | false => exact sameJournal_none

theorem SameJournal.updated {f g : JournalState → Option JournalState} (h : SameJournal a b)
    (hfg : ∀ s t, s.Same t → s.chunkDone.length < 2 ^ 32 → (f s = none ∧ g t = none) ∨
      ∃ s' t', f s = some s' ∧ g t = some t' ∧ s'.Same t' ∧ s'.chunkDone.length < 2 ^ 32) :
    SameJournal (updated o f a) (updated o g b) := by
  unfold Cfdp.updated
  by_cases hl : (o.fails .journalOpen || o.loses) = true
  · rw [if_pos hl, if_pos hl]
    exact h
  rw [if_neg hl, if_neg hl]
  rcases id h with ⟨ha, hb⟩ | ⟨s, t, ha, hb, hst⟩
  · rw [ha, hb]
    exact h
  · rw [ha, hb]
    rcases hfg s t hst (JournalState.length_lt_of_decode ha) with
      ⟨hf, hg⟩ | ⟨s', t', hf, hg, hs', hlen⟩
    · simp only [Option.bind_some, hf, hg]
      exact h
    · simp only [Option.bind_some, hf, hg]
      exact SameJournal.encode hs' hlen

/-! ## Two receivers, program by program -/

/-- The fields with other names in the record. -/
def CfdpReceiver.withNames (rx : CfdpReceiver) (filename : CharArray 256) (destPath : CharArray 512) :
    CfdpReceiver := { rx with state := rx.state.withNames filename destPath }

/-- Two runs that end alike in linked worlds; what they return is not used. -/
abbrev Twin {α : Type} (S : JournalState → JournalState → Prop) (p q : M α) (w v : World) : Prop :=
  rwp p q (fun _ _ => World.Linked S) (fun _ _ => World.Linked S) w v

theorem World.Linked.names (h : w.Linked JournalState.Same v) :
    v.rx = w.rx.withNames v.rx.state.filename v.rx.state.destPath := by
  unfold CfdpReceiver.withNames
  rw [← h.state.eq]
  exact h.rx

/-- A change of the fields that does not look at the names. -/
theorem World.Linked.setRx {f : CfdpReceiver → CfdpReceiver} (h : w.Linked JournalState.Same v)
    (hf : ∀ rx filename destPath,
      f (rx.withNames filename destPath) = (f rx).withNames filename destPath)
    (hpath : ∀ rx, (f rx).state.destPath = rx.state.destPath) :
    (w.setRx f).Linked JournalState.Same (v.setRx f) := by
  have hrx : f v.rx = (f w.rx).withNames v.rx.state.filename v.rx.state.destPath := by
    rw [← hf, ← h.names]
  refine ⟨?_, ⟨?_, ?_⟩, h.files, h.sent, h.journal⟩
  · rw [World.setRx_rx, World.setRx_rx, hrx]
    rfl
  · rw [World.setRx_rx, World.setRx_rx, hrx]
    rfl
  · show cstr (f v.rx).state.destPath.toList = cstr (f w.rx).state.destPath.toList
    rw [hpath, hpath]
    exact h.state.path

theorem World.Linked.send (h : w.Linked S v) (pdu : Bytes) : (w.send pdu).Linked S (v.send pdu) :=
  ⟨h.rx, h.state, h.files, by rw [World.sent_send, World.sent_send, h.sent], h.journal⟩

theorem World.Linked.setFile (h : w.Linked S v) (path : Bytes) (c : Option Bytes) :
    (w.setFile path c).Linked S (v.setFile path c) := by
  refine ⟨h.rx, h.state, ?_, h.sent, h.journal⟩
  show (fun p => if p = path then c else v.disk.files p) =
    fun p => if p = path then c else w.disk.files p
  rw [h.files]

theorem World.Linked.dest (h : w.Linked JournalState.Same v) : v.dest = w.dest := h.state.path

theorem World.Linked.verified (h : w.Linked JournalState.Same v) :
    verifyFileChecksum env o v = verifyFileChecksum env o w := by
  refine verifyFileChecksum_congr h.files h.state.path ?_
  rw [h.names]
  rfl

theorem twin_send (h : w.Linked S v) (pdu : Bytes) :
    Twin S (transportSend pdu) (transportSend pdu) w v := rwp_step (h.send pdu)

theorem twin_sendAck (h : w.Linked JournalState.Same v) (ci : UInt32) :
    Twin JournalState.Same (sendAck ci) (sendAck ci) w v := by
  refine rwp_get_bind ?_
  rw [h.names]
  exact twin_send h _

theorem twin_sendNakPackets (h : w.Linked JournalState.Same v) (ci : UInt32) :
    Twin JournalState.Same (sendNakPackets ci) (sendNakPackets ci) w v := by
  refine rwp_get_bind ?_
  rw [h.names]
  exact rwp_ite Iff.rfl (fun _ => rwp_pure h) fun _ => twin_send h _

theorem twin_remove (h : w.Linked S v) : Twin S (Journal.remove o) (Journal.remove o) w v := by
  exact rwp_of_wp (remove_outcome o w) (remove_outcome o v) fun _ _ _ _ => h.removed

theorem twin_update {u : JournalUpdate} {f : JournalState → Option JournalState} (h : w.Linked S v)
    (hf : ∀ s t, s.Same t → s.chunkDone.length < 2 ^ 32 → (f s = none ∧ f t = none) ∨
      ∃ s' t', f s = some s' ∧ f t = some t' ∧ s'.Same t' ∧ s'.chunkDone.length < 2 ^ 32) :
    Twin S (Journal.update o u f) (Journal.update o u f) w v := by
  refine rwp_of_wp (update_outcome o u f w) (update_outcome o u f v) fun _ _ x y hx hy => ?_
  refine h.journaled hx.1 hy.1 ?_
  rw [hx.2, hy.2]
  exact h.journal.updated hf

theorem twin_markChunkDone (h : w.Linked S v) (ci : UInt32) :
    Twin S (Journal.markChunkDone o ci) (Journal.markChunkDone o ci) w v := by
  refine twin_update h fun s t hst hlen => ?_
  rw [hst.chunkDone]
  by_cases hci : ci.toNat ≥ s.chunkDone.length
  · exact .inl ⟨if_pos hci, if_pos hci⟩
  · refine .inr ⟨_, _, if_neg hci, if_neg hci, hst.markDone ci, ?_⟩
    rwa [JournalState.length_markDone]

theorem twin_markEofReceived (h : w.Linked S v) :
    Twin S (Journal.markEofReceived o) (Journal.markEofReceived o) w v :=
  twin_update h fun _ _ hst hlen => .inr ⟨_, _, rfl, rfl, hst.markEof, hlen⟩

theorem twin_create (h : w.Linked S v) (hst : s.Same t) (hlen : s.chunkDone.length < 2 ^ 32) :
    Twin S (Journal.create o s) (Journal.create o t) w v := by
  refine rwp_of_wp (atomicWrite_outcome o _ s w) (atomicWrite_outcome o _ t v) fun _ _ x y hx hy => ?_
  refine h.journaled hx.1 hy.1 ?_
  rw [hx.2, hy.2]
  split
  · exact h.journal
  · exact SameJournal.encode hst hlen

/-! ### Files -/

theorem twin_createDest (h : w.Linked S v) (path : Bytes) (fileSize : UInt64) :
    Twin S (createDest o path fileSize) (createDest o path fileSize) w v := by
  refine rwp_ite Iff.rfl (fun _ => rwp_throw h) fun _ => ?_
  refine rwp_bind (rwp_step (rwp_ite Iff.rfl (fun _ => rwp_step ?_) fun _ => rwp_pure ?_))
  · exact (h.setFile _ _).setFile _ _
  · exact h.setFile _ _

/-- Both find the file, or neither does. -/
theorem twin_openDest {call : FsCall} {path : Bytes} {k l : Bool → M Unit} (h : w.Linked S v)
    (hk : ∀ opened, Twin S (k opened) (l opened) w v) :
    Twin S (openDest o call path >>= k) (openDest o call path >>= l) w v := by
  refine rwp_bind (rwp_get_bind (rwp_pure ?_))
  rw [h.files]
  exact hk _

theorem twin_openOrCreate (h : w.Linked S v) (path : Bytes) (fileSize : UInt64) :
    Twin S (openOrCreate o path fileSize) (openOrCreate o path fileSize) w v := by
  refine twin_openDest h fun opened => rwp_ite Iff.rfl (fun _ => rwp_pure h) fun _ => ?_
  refine rwp_ite Iff.rfl (fun _ => ?_) fun _ => rwp_throw h
  refine rwp_seq (twin_createDest h path fileSize) fun _ _ x y hxy => ?_
  exact twin_openDest hxy fun reopened =>
    rwp_ite Iff.rfl (fun _ => rwp_pure hxy) fun _ => rwp_throw hxy

theorem twin_writeBytes (h : w.Linked S v) (path : Bytes) (offset : Nat) (data : Bytes) :
    Twin S (writeBytes path offset data) (writeBytes path offset data) w v := by
  refine rwp_get_bind ?_
  rw [h.files]
  refine rwp_steps (fun f hf x y hxy => ?_) h
  obtain ⟨i, -, rfl⟩ := List.mem_map.mp hf
  exact hxy.setFile _ _

theorem twin_writeChunk (h : w.Linked S v) (path : Bytes) (offset : UInt64) (data : Bytes) :
    Twin S (writeChunk o path offset data) (writeChunk o path offset data) w v := by
  refine rwp_ite Iff.rfl (fun _ => rwp_throw h) fun _ => rwp_ite Iff.rfl (fun _ => ?_) fun _ => ?_
  · exact rwp_seq (twin_writeBytes h path _ _) fun _ _ _ _ hxy => rwp_throw hxy
  · exact twin_writeBytes h path _ _

/-! ### Handlers -/

theorem twin_deactivate (h : w.Linked JournalState.Same v) :
    Twin JournalState.Same
      (do modify fun w => w.setRx CfdpReceiver.deactivate
          let _ ← Journal.remove o)
      (do modify fun w => w.setRx CfdpReceiver.deactivate
          let _ ← Journal.remove o) w v := by
  refine rwp_modify_bind (rwp_seq (twin_remove (h.setRx ?_ ?_)) ?_)
  · exact fun _ _ _ => rfl
  · exact fun _ => rfl
  · exact fun _ _ _ _ hxy => rwp_pure hxy

theorem twin_checkCompletion (h : w.Linked JournalState.Same v) :
    Twin JournalState.Same (checkCompletion env o) (checkCompletion env o) w v := by
  refine rwp_get_bind ?_
  rw [h.verified, h.names]
  refine rwp_ite Iff.rfl (fun _ => rwp_pure h) fun _ => rwp_ite Iff.rfl (fun _ => ?_) fun _ => ?_
  · exact twin_sendNakPackets h _
  -- both look for the same missing chunk
  have hchunks (filename destPath) : (w.rx.withNames filename destPath).state.computeMissingChunks =
      w.rx.state.computeMissingChunks := rfl
  have hseen (filename destPath) : (w.rx.withNames filename destPath).maxChunkSeen =
      w.rx.maxChunkSeen := rfl
  simp only [hchunks, hseen]
  split
  · exact twin_send h _
  · refine rwp_ite Iff.rfl (fun _ => rwp_pure h) fun _ => rwp_ite Iff.rfl (fun _ => ?_) fun _ => ?_
    · exact twin_deactivate h
    · have hacked := h.setRx (f := fun rx => { rx with lastAckedId := rx.state.transactionId })
        (fun _ _ _ => rfl) fun _ => rfl
      exact rwp_modify_bind (rwp_seq (twin_sendAck hacked _) fun _ _ _ _ hxy => twin_deactivate hxy)

theorem twin_flushChunk (h : w.Linked JournalState.Same v) (ci : UInt32) :
    Twin JournalState.Same (flushChunk env o ci) (flushChunk env o ci) w v := by
  refine rwp_get_bind ?_
  have hpath : v.rx.state.recvFilePath = w.rx.state.recvFilePath := h.state.path
  rw [hpath, h.names]
  refine rwp_seq (twin_openOrCreate h _ _) fun _ _ x y hxy => ?_
  refine rwp_seq (twin_writeChunk hxy _ _ _) fun _ _ x y hxy => ?_
  have hmarked := hxy.setRx (f := fun rx => { rx with state := rx.state.markDone ci })
    (fun _ _ _ => rfl) fun _ => rfl
  refine rwp_modify_bind (rwp_seq (twin_markChunkDone hmarked ci) fun _ _ x y hxy => ?_)
  refine rwp_seq (twin_sendAck hxy ci) fun _ _ x y hxy => ?_
  refine rwp_modify_bind (rwp_ite Iff.rfl (fun _ => twin_checkCompletion ?_) fun _ => rwp_pure ?_)
  · exact hxy.setRx (fun _ _ _ => rfl) fun _ => rfl
  · exact hxy.setRx (fun _ _ _ => rfl) fun _ => rfl

theorem twin_switchChunk (h : w.Linked JournalState.Same v) (ci totalPackets : UInt32) :
    Twin JournalState.Same (switchChunk ci totalPackets) (switchChunk ci totalPackets) w v := by
  refine rwp_get_bind ?_
  rw [h.names]
  have hnak : Twin JournalState.Same nakUnfinished nakUnfinished w v := by
    refine rwp_get_bind ?_
    rw [h.names]
    exact rwp_ite Iff.rfl (fun _ => twin_sendNakPackets h _) fun _ => rwp_pure h
  refine rwp_ite Iff.rfl (fun _ => rwp_seq hnak fun _ _ x y hxy => ?_) fun _ => rwp_pure h
  exact rwp_modify (hxy.setRx (fun _ _ _ => rfl) fun _ => rfl)

theorem twin_handleData (h : w.Linked JournalState.Same v) (d : DataPdu) :
    Twin JournalState.Same (handleData env o d) (handleData env o d) w v := by
  have hsee : ∀ rx filename destPath, CfdpReceiver.see d.chunkIndex (rx.withNames filename destPath) =
      (CfdpReceiver.see d.chunkIndex rx).withNames filename destPath := by
    intro rx filename destPath
    unfold CfdpReceiver.see
    by_cases hgt : d.chunkIndex > rx.maxChunkSeen
    · have hgt' : d.chunkIndex > (rx.withNames filename destPath).maxChunkSeen := hgt
      rw [if_pos hgt, if_pos hgt']
      rfl
    · have hgt' : ¬ d.chunkIndex > (rx.withNames filename destPath).maxChunkSeen := hgt
      rw [if_neg hgt, if_neg hgt']
  refine rwp_get_bind ?_
  rw [h.names]
  refine rwp_ite Iff.rfl (fun _ => rwp_pure h) fun _ => rwp_modify_bind ?_
  have hseen := h.setRx hsee fun rx => by rw [CfdpReceiver.see_state]
  refine rwp_ite Iff.rfl
    (fun _ => rwp_ite Iff.rfl (fun _ => twin_sendAck hseen _) fun _ => rwp_pure hseen)
    fun _ => rwp_seq (twin_switchChunk hseen _ _) fun _ _ x y hxy => ?_
  have hstored := hxy.setRx (f := CfdpReceiver.store d) (fun _ _ _ => rfl) fun _ => rfl
  refine rwp_modify_bind (rwp_get_bind ?_)
  rw [hstored.names]
  exact rwp_ite Iff.rfl (fun _ => twin_flushChunk hstored _) fun _ => rwp_pure hstored

theorem twin_handleEof (h : w.Linked JournalState.Same v) (eof : EofPdu) :
    Twin JournalState.Same (handleEof env o eof) (handleEof env o eof) w v := by
  have hnote : Twin JournalState.Same (noteEof o) (noteEof o) w v := by
    refine rwp_get_bind ?_
    rw [h.names]
    refine rwp_ite Iff.rfl (fun _ => ?_) fun _ => rwp_pure h
    refine rwp_seq (twin_markEofReceived h) fun _ _ x y hxy => ?_
    exact rwp_modify (hxy.setRx (fun _ _ _ => rfl) fun _ => rfl)
  refine rwp_get_bind ?_
  rw [h.names]
  refine rwp_ite Iff.rfl (fun _ => rwp_pure h) fun _ => ?_
  refine rwp_ite Iff.rfl (fun _ => rwp_pure h) fun _ => ?_
  exact rwp_seq hnote fun _ _ _ _ hxy => twin_checkCompletion hxy

theorem twin_handleResumeQuery (h : w.Linked JournalState.Same v) (query : ResumeQueryPdu) :
    Twin JournalState.Same (handleResumeQuery query) (handleResumeQuery query) w v := by
  refine rwp_get_bind ?_
  rw [h.names]
  exact twin_send h _

/-- What `handle_metadata` does with a Metadata it accepts. -/
def accept (env : Env) (o : Oracle) (m : MetadataPdu) : M Unit := do
  removeJournal o
  modify fun w => w.setRx fun rx => { rx with state := rx.state.start env o m }
  let w ← get
  let _ ← Journal.create o w.rx.state
  modify fun w => w.setRx CfdpReceiver.activate

theorem removeJournal_outcome (o : Oracle) (w : World) : wp (removeJournal o) (fun _ => True)
    (fun _ x => w.Alike x ∧
      x.disk.stateBin = if o.fails .journalRemove then w.disk.stateBin else none)
    (fun _ _ => False) w := by
  rw [removeJournal, wp_bind, wp_get, wp_ite]
  refine ⟨fun _ => ?_, fun h => ?_⟩
  · rw [wp_bind]
    refine wp_mono (remove_outcome o w) (fun _ h => h) (fun _ x hx => ?_) fun _ _ h => h
    exact (wp_pure ()).mpr hx
  · rw [Option.not_isSome_iff_eq_none] at h
    rw [wp_pure, h]
    exact ⟨⟨rfl, rfl, rfl⟩, by split <;> rfl⟩

/-- Once a Metadata is accepted it does not matter what was in the records. -/
theorem twin_accept (h : w.Linked S v) (m : MetadataPdu) :
    Twin JournalState.Same (accept env o m) (accept env o m) w v := by
  have hdrop : rwp (removeJournal o) (removeJournal o) (fun _ _ => World.Linked S)
      (fun _ _ => World.Linked JournalState.Same) w v := by
    exact rwp_of_wp (removeJournal_outcome o w) (removeJournal_outcome o v) fun _ _ _ _ => h.removed
  refine rwp_seq hdrop fun _ _ x y hxy => rwp_modify_bind ?_
  have hstarted : (x.setRx fun rx => { rx with state := rx.state.start env o m }).Linked
      JournalState.Same (y.setRx fun rx => { rx with state := rx.state.start env o m }) := by
    refine ⟨?_, JournalState.same_start env o m _ _, hxy.files, hxy.sent, hxy.journal⟩
    show ({ y.rx with state := y.rx.state.start env o m } : CfdpReceiver) =
      { x.rx with state := y.rx.state.start env o m }
    rw [hxy.rx]
  have hlen : (x.rx.state.start env o m).chunkDone.length < 2 ^ 32 := by
    show (List.replicate m.totalChunks.toNat false).length < 2 ^ 32
    rw [List.length_replicate]
    exact m.totalChunks.toNat_lt
  refine rwp_get_bind (rwp_seq (twin_create hstarted hstarted.state hlen) fun _ _ x y hxy => ?_)
  exact rwp_modify (hxy.setRx (fun _ _ _ => rfl) fun _ => rfl)

theorem twin_handleMetadata (h : w.Linked JournalState.Same v) (m : MetadataPdu) :
    Twin JournalState.Same (handleMetadata env o m) (handleMetadata env o m) w v := by
  refine rwp_get_bind ?_
  rw [h.names]
  refine rwp_ite Iff.rfl (fun _ => rwp_pure h) fun _ => ?_
  refine rwp_ite Iff.rfl (fun _ => twin_sendAck h _) fun _ => ?_
  exact rwp_ite Iff.rfl (fun _ => rwp_pure h) fun _ => twin_accept h m

/-- **Two receivers with records that are the same** handle a PDU alike. -/
theorem twin_onPduReceived (h : w.Linked JournalState.Same v) (raw : Bytes) :
    Twin JournalState.Same (onPduReceived env o raw) (onPduReceived env o raw) w v := by
  unfold onPduReceived
  cases decodePdu raw with
  | none => exact rwp_pure h
  | some pdu =>
    cases pdu with
    | metadata m => exact twin_handleMetadata h m
    | data d => exact twin_handleData h d
    | eof eof => exact twin_handleEof h eof
    | resumeQuery query => exact twin_handleResumeQuery h query

/-! ## Before a Metadata is accepted -/

/-- No transfer has been accepted, and the two worlds are the same but for their records. -/
structure World.Idle (w v : World) : Prop extends World.Linked (fun _ _ => True) w v where
  inactive : w.rx.transferActive = false
  unacked : w.rx.lastAckedId = 0

/-- A Metadata with the transaction id 0 comes before every Metadata that is accepted. -/
def leaks : List Bytes → Bool
  | [] => false
  | raw :: raws =>
    match decodePdu raw with
    | some (.metadata m) => m.transactionId == 0 || (!m.sane && leaks raws)
    | _ => leaks raws

theorem leaks_metadata {raw : Bytes} {m : MetadataPdu} (hd : decodePdu raw = some (.metadata m))
    (raws : List Bytes) :
    leaks (raw :: raws) = (m.transactionId == 0 || (!m.sane && leaks raws)) := by
  rw [leaks, hd]

theorem leaks_other {raw : Bytes} (hd : ∀ m, decodePdu raw ≠ some (.metadata m)) (raws : List Bytes) :
    leaks (raw :: raws) = leaks raws := by
  rw [leaks]
  split
  · next m hm => exact absurd hm (hd m)
  · rfl

/-- What the receiver answers without looking at its record. -/
def idleAnswer (raw : Bytes) : Option Bytes :=
  match decodePdu raw with
  | some (.resumeQuery query) => some (ResumeInfoPdu.raw ⟨query.transactionId, 0⟩)
  | _ => none

theorem World.Idle.right (h : w.Idle v) : v.rx.transferActive = false ∧ v.rx.lastAckedId = 0 := by
  rw [h.rx]
  exact ⟨h.inactive, h.unacked⟩

/-- While idle the receiver takes in nothing but a Metadata that is sane. -/
theorem wp_idle (ha : w.rx.transferActive = false) (hl : w.rx.lastAckedId = 0) {raw : Bytes}
    (hm : ∀ m, decodePdu raw = some (.metadata m) → m.transactionId ≠ 0 ∧ m.sane = false) :
    wp (onPduReceived env o raw) (fun _ => True) (fun _ x => x = w.sendOption (idleAnswer raw))
      (fun _ _ => False) w := by
  unfold onPduReceived idleAnswer
  cases hd : decodePdu raw with
  | none => exact (wp_pure ()).mpr rfl
  | some pdu =>
    cases pdu with
    | metadata m =>
      obtain ⟨hne, hsane⟩ := hm m hd
      refine wp_handleMetadata (fun _ _ => rfl) (fun hr => ?_) fun hacc => ?_
      · simp only [CfdpReceiver.repeatsAck, ha, hl, Bool.not_false, Bool.true_and, beq_iff_eq] at hr
        exact absurd hr.symm hne
      · rw [CfdpReceiver.sane_of_accepts hacc] at hsane
        cases hsane
    | data d =>
      have hno : w.rx.acceptsData d = false := by
        unfold CfdpReceiver.acceptsData
        rw [ha, Bool.false_and]
      refine wp_handleData (fun _ => rfl) (fun hacc => ?_) fun hacc => ?_ <;>
      · rw [hno] at hacc
        cases hacc
    | eof eof =>
      have hno : w.rx.acceptsEof eof = false := by
        unfold CfdpReceiver.acceptsEof
        rw [ha, Bool.false_and]
      refine wp_handleEof (fun _ => rfl) (fun hacc => ?_) fun hacc => ?_ <;>
      · rw [hno] at hacc
        cases hacc
    | resumeQuery query =>
      have hzero : firstMissingChunk w.rx query.transactionId = 0 := by
        simp [firstMissingChunk, ha]
      refine wp_handleResumeQuery.mpr ⟨trivial, ?_⟩
      rw [hzero]
      rfl

/-- A Metadata with the transaction id 0 is answered with the record's. -/
theorem wp_idle_zero (ha : w.rx.transferActive = false) (hl : w.rx.lastAckedId = 0) {raw : Bytes}
    {m : MetadataPdu} (hd : decodePdu raw = some (.metadata m)) (hm : m.transactionId = 0) :
    wp (onPduReceived env o raw) (fun _ => True) (fun _ x => x = w.send (w.rx.ack uint32Max))
      (fun _ _ => False) w := by
  have hr : w.rx.repeatsAck m = true := by
    unfold CfdpReceiver.repeatsAck
    rw [ha, hl, hm]
    rfl
  rw [onPduReceived, hd]
  refine wp_handleMetadata (fun hno => ?_) (fun _ => ⟨trivial, rfl⟩) fun hacc => ?_
  · rw [hr] at hno
    cases hno
  · rw [CfdpReceiver.accepts_repeatsAck hacc] at hr
    cases hr

/-- One that is sane and has another id is accepted. -/
theorem twin_idle_accept (h : w.Idle v) {raw : Bytes} {m : MetadataPdu}
    (hd : decodePdu raw = some (.metadata m)) (hm : m.transactionId ≠ 0) (hs : m.sane = true) :
    Twin JournalState.Same (onPduReceived env o raw) (onPduReceived env o raw) w v := by
  obtain ⟨hva, hvl⟩ := h.right
  have hunacked (lastAckedId : UInt32) (hz : lastAckedId = 0) :
      ¬ (!false && lastAckedId == m.transactionId) = true := by
    rw [hz]
    simpa using hm.symm
  unfold onPduReceived
  rw [hd]
  refine rwp_get_bind ?_
  rw [h.inactive, hva, hs]
  refine rwp_ite Iff.rfl (fun hc => ?_) fun _ => ?_
  · rw [Bool.false_and] at hc
    cases hc
  refine rwp_ite (iff_of_false (hunacked _ h.unacked) (hunacked _ hvl))
    (fun hc => absurd hc (hunacked _ h.unacked)) fun _ => ?_
  exact rwp_ite Iff.rfl (fun hc => absurd hc Bool.false_ne_true) fun _ => twin_accept h.toLinked m

/-- What a PDU means to an idle receiver. -/
inductive IdleCase (raw : Bytes) : Prop where
  | quiet (hm : ∀ m, decodePdu raw = some (.metadata m) → m.transactionId ≠ 0 ∧ m.sane = false)
      (hl : ∀ raws, leaks (raw :: raws) = leaks raws)
  | zero (m : MetadataPdu) (hd : decodePdu raw = some (.metadata m)) (hm : m.transactionId = 0)
      (hl : ∀ raws, leaks (raw :: raws) = true)
  | accept (m : MetadataPdu) (hd : decodePdu raw = some (.metadata m)) (hm : m.transactionId ≠ 0)
      (hs : m.sane = true) (hl : ∀ raws, leaks (raw :: raws) = false)

theorem idleCase (raw : Bytes) : IdleCase raw := by
  by_cases hmeta : ∃ m, decodePdu raw = some (.metadata m)
  · obtain ⟨m, hd⟩ := hmeta
    have hleaks := leaks_metadata hd
    by_cases hm : m.transactionId = 0
    · refine .zero m hd hm fun raws => ?_
      rw [hleaks, hm]
      rfl
    · have hne : (m.transactionId == 0) = false := by simpa using hm
      cases hs : m.sane with
      | true =>
        refine .accept m hd hm hs fun raws => ?_
        rw [hleaks, hne, hs]
        rfl
      | false =>
        refine .quiet (fun m' hm' => ?_) fun raws => ?_
        · rw [hd] at hm'
          cases hm'
          exact ⟨hm, hs⟩
        · rw [hleaks, hne, hs]
          rfl
  · exact .quiet (fun m hm => absurd ⟨m, hm⟩ hmeta) (leaks_other fun m hm => hmeta ⟨m, hm⟩)

/-! ## Runs -/

/-- The node after an action; one that cannot make it stays as it is. -/
def Node.after (env : Env) (n : Node) (a : Action) : Node :=
  match Node.step env n a with
  | some (_, n') => n'
  | none => n

/-- PDUs delivered one after the other. -/
def Node.deliverAll (env : Env) (n : Node) (ds : List (Bytes × Oracle)) : Node :=
  ds.foldl (fun n d => n.after env (.recv d.1 d.2 none)) n

/-- The same transmissions, the same files, and journals that cannot be told apart. -/
structure Node.Alike (n n' : Node) : Prop where
  sent : n'.sent = n.sent
  files : n'.disk.files = n.disk.files
  journal : SameJournal n.disk.stateBin n'.disk.stateBin

theorem after_recv (env : Env) (o : Oracle) (w : World) (raw : Bytes) :
    (Node.up w).after env (.recv raw o none) =
      match (onPduReceived env o raw w).result with
      | .ok _ => .up (onPduReceived env o raw w).final
      | .error _ => (onPduReceived env o raw w).final.crashed := by
  simp only [Node.after, Node.step, Node.finish]
  cases (onPduReceived env o raw w).result <;> rfl

theorem after_recv_of_wp {raw : Bytes}
    (h : wp (onPduReceived env o raw) (fun _ => True) (fun _ y => y = x) (fun _ _ => False) w) :
    (Node.up w).after env (.recv raw o none) = .up x := by
  obtain ⟨_, hres, hfinal⟩ := h.returns
  rw [after_recv, hres, hfinal]

theorem deliverAll_down (disk : Disk) (log : List Event) (ds : List (Bytes × Oracle)) :
    (Node.down disk log).deliverAll env ds = .down disk log := by
  induction ds with
  | nil => rfl
  | cons d ds ih => exact ih

theorem deliverAll_sent (n : Node) (ds : List (Bytes × Oracle)) :
    ∃ out, (n.deliverAll env ds).sent = n.sent ++ out := by
  induction ds generalizing n with
  | nil => exact ⟨[], (List.append_nil _).symm⟩
  | cons d ds ih =>
    have hone : ∃ out, (n.after env (.recv d.1 d.2 none)).sent = n.sent ++ out := by
      unfold Node.after
      split
      · next ms n' hs =>
        cases n with
        | up w =>
          obtain ⟨_, out, -, hout, -⟩ := Node.sent_recv hs
          exact ⟨out, hout⟩
        | down disk log => cases hs
      · exact ⟨[], (List.append_nil _).symm⟩
    obtain ⟨out, hout⟩ := hone
    obtain ⟨out', hout'⟩ := ih (n.after env (.recv d.1 d.2 none))
    exact ⟨out ++ out', by rw [← List.append_assoc, ← hout]; exact hout'⟩

theorem World.Linked.alike (h : w.Linked S v) : (Node.up w).Alike (.up v) :=
  ⟨h.sent, h.files, h.journal⟩

/-- Receivers that are down take nothing. -/
theorem World.Linked.alike_crashed (h : w.Linked S v) (ds : List (Bytes × Oracle)) :
    (w.crashed.deliverAll env ds).Alike (v.crashed.deliverAll env ds) := by
  rw [World.crashed, World.crashed, deliverAll_down, deliverAll_down]
  exact ⟨h.sent, h.files, h.journal⟩

/-- What two runs that end alike leave. -/
theorem alike_after {raw : Bytes} {P : Node → Node → Prop}
    (h : Twin S (onPduReceived env o raw) (onPduReceived env o raw) w v)
    (hup : ∀ x y, x.Linked S y → P (.up x) (.up y))
    (hdown : ∀ x y : World, x.Linked S y → P x.crashed y.crashed) :
    P ((Node.up w).after env (.recv raw o none)) ((Node.up v).after env (.recv raw o none)) := by
  rw [after_recv, after_recv]
  unfold Twin rwp at h
  revert h
  cases (onPduReceived env o raw w).result with
  | error e =>
    cases (onPduReceived env o raw v).result with
    | error e' => exact hdown _ _
    | ok u => exact False.elim
  | ok u =>
    cases (onPduReceived env o raw v).result with
    | error e' => exact False.elim
    | ok u' => exact hup _ _

/-- Linked worlds with the same record stay alike. -/
theorem alike_deliverAll (h : w.Linked JournalState.Same v) (ds : List (Bytes × Oracle)) :
    ((Node.up w).deliverAll env ds).Alike ((Node.up v).deliverAll env ds) := by
  induction ds generalizing w v with
  | nil => exact h.alike
  | cons d ds ih =>
    exact alike_after (P := fun n n' => (n.deliverAll env ds).Alike (n'.deliverAll env ds))
      (twin_onPduReceived h d.1) (fun x y hxy => ih hxy) fun x y hxy => hxy.alike_crashed ds

theorem World.Idle.send (h : w.Idle v) (pdu : Bytes) : (w.send pdu).Idle (v.send pdu) :=
  ⟨h.toLinked.send pdu, h.inactive, h.unacked⟩

theorem World.Idle.sendOption (h : w.Idle v) (pdu : Option Bytes) :
    (w.sendOption pdu).Idle (v.sendOption pdu) := by
  cases pdu with
  | none => exact h
  | some pdu => exact h.send pdu

/-- **Idle worlds stay alike** if their records have the same id, or nobody asks for it. -/
theorem idle_alike (h : w.Idle v) {ds : List (Bytes × Oracle)}
    (hc : w.rx.state.transactionId = v.rx.state.transactionId ∨ leaks (ds.map Prod.fst) = false) :
    ((Node.up w).deliverAll env ds).Alike ((Node.up v).deliverAll env ds) := by
  induction ds generalizing w v with
  | nil => exact h.toLinked.alike
  | cons d ds ih =>
    obtain ⟨raw, o⟩ := d
    obtain ⟨hva, hvl⟩ := h.right
    show (((Node.up w).after env (.recv raw o none)).deliverAll env ds).Alike
      (((Node.up v).after env (.recv raw o none)).deliverAll env ds)
    rcases idleCase raw with ⟨hm, hl⟩ | ⟨m, hd, hm, hl⟩ | ⟨m, hd, hm, hs, -⟩
    · rw [List.map_cons, hl] at hc
      rw [after_recv_of_wp (wp_idle h.inactive h.unacked hm), after_recv_of_wp (wp_idle hva hvl hm)]
      refine ih (h.sendOption _) ?_
      simpa only [World.sendOption_rx] using hc
    · rw [List.map_cons, hl] at hc
      have htid := hc.resolve_right (by simp)
      rw [after_recv_of_wp (wp_idle_zero h.inactive h.unacked hd hm),
        after_recv_of_wp (wp_idle_zero hva hvl hd hm), CfdpReceiver.ack, CfdpReceiver.ack, htid]
      exact ih (h.send _) (.inl htid)
    · exact alike_after (P := fun n n' => (n.deliverAll env ds).Alike (n'.deliverAll env ds))
        (twin_idle_accept h hd hm hs) (fun x y hxy => alike_deliverAll hxy ds)
        fun x y hxy => hxy.alike_crashed ds

/-- Otherwise the transmissions differ from the first answer on that carries the id. -/
theorem idle_leaks (h : w.Idle v) (hne : w.rx.state.transactionId ≠ v.rx.state.transactionId)
    {ds : List (Bytes × Oracle)} (hc : leaks (ds.map Prod.fst) = true) :
    ((Node.up v).deliverAll env ds).sent ≠ ((Node.up w).deliverAll env ds).sent := by
  induction ds generalizing w v with
  | nil => cases hc
  | cons d ds ih =>
    obtain ⟨raw, o⟩ := d
    obtain ⟨hva, hvl⟩ := h.right
    show (((Node.up v).after env (.recv raw o none)).deliverAll env ds).sent ≠
      (((Node.up w).after env (.recv raw o none)).deliverAll env ds).sent
    rcases idleCase raw with ⟨hm, hl⟩ | ⟨m, hd, hm, -⟩ | ⟨m, hd, hm, hs, hl⟩
    · rw [List.map_cons, hl] at hc
      rw [after_recv_of_wp (wp_idle h.inactive h.unacked hm), after_recv_of_wp (wp_idle hva hvl hm)]
      exact ih (h.sendOption _) (by simpa only [World.sendOption_rx] using hne) hc
    · rw [after_recv_of_wp (wp_idle_zero h.inactive h.unacked hd hm),
        after_recv_of_wp (wp_idle_zero hva hvl hd hm)]
      obtain ⟨out, hout⟩ := @deliverAll_sent env (.up (w.send (w.rx.ack uint32Max))) ds
      obtain ⟨out', hout'⟩ := @deliverAll_sent env (.up (v.send (v.rx.ack uint32Max))) ds
      have hw : (Node.up (w.send (w.rx.ack uint32Max))).sent = w.sent ++ [w.rx.ack uint32Max] :=
        World.sent_send w _
      have hv : (Node.up (v.send (v.rx.ack uint32Max))).sent = v.sent ++ [v.rx.ack uint32Max] :=
        World.sent_send v _
      rw [hout, hout', hw, hv, h.sent, List.append_assoc, List.append_assoc]
      intro heq
      obtain ⟨hack, -⟩ := List.cons.inj (List.append_cancel_left heq)
      have hpdu := AckPdu.raw_inj.mp hack
      exact hne (congrArg AckPdu.transactionId hpdu).symm
    · rw [List.map_cons, hl] at hc
      cases hc

/-! ## Boot -/

variable {garbage : JournalState} {disk : Disk} {log : List Event} {c : Bytes}

theorem decode_of_rejected {odd : Bool} (h : (JournalState.readFromDisk odd (some c) s).1 = false) :
    JournalState.decode (some c) = none := by
  have hshort : ¬ JournalState.Whole c := fun hw => by
    rw [JournalState.readFromDisk_whole hw odd] at h
    cases h
  have hblank := JournalState.readFromDisk_short hshort true JournalState.blank
  unfold JournalState.decode
  generalize JournalState.readFromDisk true (some c) JournalState.blank = l at hblank
  obtain ⟨good, s'⟩ := l
  cases hblank
  rfl

/-- The loader keeps the transaction id if the first bytes of the file are its own. -/
theorem readFromDisk_keeps_tid (odd : Bool) (c : Bytes) (s : JournalState) :
    (JournalState.readFromDisk odd (some c) s).2.transactionId = s.transactionId ↔
      c.take 4 <+: le32 s.transactionId := by
  have hread : (JournalState.readFromDisk odd (some c) s).2.transactionId =
      rd32 (c.take 4 ++ (le32 s.transactionId).drop (c.take 4).length) := rfl
  have hlen := length_le32 s.transactionId
  rw [hread]
  constructor
  · intro h
    have htake : (c.take 4 ++ (le32 s.transactionId).drop (c.take 4).length).length = 4 := by
      rw [List.length_append, List.length_drop, hlen, List.length_take]
      omega
    have hbytes := le32_rd32 (Nat.le_of_eq htake.symm)
    rw [h, List.take_of_length_le (Nat.le_of_eq htake)] at hbytes
    rw [hbytes]
    exact List.prefix_append _ _
  · rintro ⟨r, hr⟩
    rw [← hr, List.drop_left, hr, rd32_le32']

/-- What a boot from a journal that is rejected leaves. -/
theorem boot_rejected (hc : disk.stateBin = some c)
    (hrej : (JournalState.readFromDisk o.oddBool (some c) (CfdpReceiver.construct garbage).state).1 = false) :
    ∃ w, (Node.down disk log).after env (.boot garbage o none) = .up w ∧
      World.Idle w ⟨.construct garbage, { disk with stateBin := none }, log⟩ ∧
      w.rx.state = (World.loads o ⟨.construct garbage, disk, log⟩).2 := by
  have hload : (World.loads o ⟨.construct garbage, disk, log⟩).1 = false := by
    unfold World.loads
    split
    · rfl
    · rw [hc]
      exact hrej
  have hspec : wp (onBoot env o) (fun _ => True)
      (fun _ w => World.Idle w ⟨.construct garbage, { disk with stateBin := none }, log⟩ ∧
        w.rx.state = (World.loads o ⟨.construct garbage, disk, log⟩).2) (fun _ _ => False)
      ⟨.construct garbage, disk, log⟩ := by
    refine wp_onBoot (fun hn => ?_) (fun _ _ => ?_) fun _ hok => ?_
    · rw [hc] at hn
      cases hn
    · rintro w₁ rfl
      refine ⟨trivial, fun w' hr => ?_⟩
      rcases hr with ⟨rfl, -⟩ | ⟨rfl, -⟩
      · refine ⟨⟨⟨rfl, trivial, rfl, rfl, .inl ⟨?_, rfl⟩⟩, rfl, rfl⟩, rfl⟩
        show JournalState.decode disk.stateBin = none
        rw [hc]
        exact decode_of_rejected hrej
      · refine ⟨⟨⟨rfl, trivial, rfl, ?_, sameJournal_none⟩, rfl, rfl⟩, rfl⟩
        rw [World.sent_dropJournal]
        rfl
    · rw [hload] at hok
      cases hok
  obtain ⟨_, hres, hidle, hstate⟩ := hspec.returns
  refine ⟨_, ?_, hidle, hstate⟩
  simp only [Node.after, Node.step, Node.finish, hres, Option.map_some]

/-- **A rejected journal is the same as no journal**, for what is transmitted and stored afterwards,
exactly if it does not open, or the bytes read over the transaction id are the id's own, or no Metadata
with the transaction id 0 arrives before one is accepted. -/
theorem rejected_alike_iff (env : Env) (o : Oracle) (log : List Event) (hc : disk.stateBin = some c)
    (hrej : (JournalState.readFromDisk o.oddBool (some c) (CfdpReceiver.construct garbage).state).1 = false)
    (ds : List (Bytes × Oracle)) :
    (((Node.down disk log).after env (.boot garbage o none)).deliverAll env ds).Alike
        (((Node.down { disk with stateBin := none } log).after env
          (.boot garbage o none)).deliverAll env ds) ↔
      o.fails .journalOpen = true ∨ c.take 4 <+: le32 garbage.transactionId ∨
        leaks (ds.map Prod.fst) = false := by
  obtain ⟨w, hw, hidle, hstate⟩ := @boot_rejected o env garbage disk log c hc hrej
  have hfresh : (Node.down { disk with stateBin := none } log).after env (.boot garbage o none) =
      .up ⟨.construct garbage, { disk with stateBin := none }, log⟩ := rfl
  have htid : w.rx.state.transactionId = garbage.transactionId ↔
      o.fails .journalOpen = true ∨ c.take 4 <+: le32 garbage.transactionId := by
    rw [hstate]
    unfold World.loads
    by_cases ho : o.fails .journalOpen = true
    · rw [if_pos ho]
      exact iff_of_true rfl (.inl ho)
    · rw [if_neg ho, hc]
      exact (readFromDisk_keeps_tid o.oddBool c (CfdpReceiver.construct garbage).state).trans
        (or_iff_right ho).symm
  rw [hw, hfresh, ← or_assoc, ← htid]
  constructor
  · intro halike
    by_contra hno
    obtain ⟨hne, hleak⟩ := not_or.mp hno
    exact idle_leaks hidle hne (by simpa using hleak) halike.sent
  · exact fun hcond => idle_alike hidle hcond

/-- A disk whose journal file holds four bytes, those of transaction id 9. -/
def cutDisk : Disk := ⟨some (le32 9), none, fun _ => none⟩

theorem cutDisk_rejected (odd : Bool) (s : JournalState) :
    (JournalState.readFromDisk odd (some (le32 9)) s).1 = false :=
  JournalState.readFromDisk_short (by decide) odd s

/-- The Metadata of transaction 1 arrives. -/
theorem rejected_alike_small :
    (((Node.down cutDisk []).after sampleEnv (.boot .blank noFaults none)).deliverAll sampleEnv
        [(PduType.metadata.code :: (metadataOf 1).toBytes, noFaults)]).Alike
      (((Node.down { cutDisk with stateBin := none } []).after sampleEnv
        (.boot .blank noFaults none)).deliverAll sampleEnv
          [(PduType.metadata.code :: (metadataOf 1).toBytes, noFaults)]) :=
  (rejected_alike_iff sampleEnv noFaults [] rfl (cutDisk_rejected _ _) _).mpr
    (.inr (.inr (by decide +kernel)))

/-- A Metadata with the transaction id 0 is answered with 9. -/
theorem not_rejected_alike : ¬ ∀ (env : Env) (o : Oracle) (garbage : JournalState) (disk : Disk)
    (log : List Event) (c : Bytes) (ds : List (Bytes × Oracle)), disk.stateBin = some c →
      (JournalState.readFromDisk o.oddBool (some c) (CfdpReceiver.construct garbage).state).1 = false →
      (((Node.down disk log).after env (.boot garbage o none)).deliverAll env ds).Alike
        (((Node.down { disk with stateBin := none } log).after env
          (.boot garbage o none)).deliverAll env ds) := by
  intro h
  let m : MetadataPdu := { metadataOf 1 with transactionId := 0 }
  have halike := h sampleEnv noFaults .blank cutDisk [] (le32 9)
    [(PduType.metadata.code :: m.toBytes, noFaults)] rfl (cutDisk_rejected _ _)
  obtain ⟨w, hw, hidle, hstate⟩ :=
    @boot_rejected noFaults sampleEnv .blank cutDisk [] (le32 9) rfl (cutDisk_rejected _ _)
  have htid : w.rx.state.transactionId = 9 := by
    rw [hstate]
    decide +kernel
  rw [hw] at halike
  refine idle_leaks hidle ?_ ?_ halike.sent
  · rw [htid]
    decide
  · decide +kernel

end

end Cfdp
