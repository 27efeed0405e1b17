import Cfdp.CfdpReceiver

/-!
# Rules for the handlers

One rule for each handler and for each part handlers share. The hypotheses of a
rule list the worlds the program passes, as explicit updates of the world it
starts from: the stages of the destination file (`Stage`), the outcome of a
journal update (`Updated`, `Created`) and of the removal of the journal
(`Removed`), the answer of `check_completion` (`Completion`). Proofs about
handlers use these rules and never unfold the programs.
-/

namespace Cfdp

open Crash Prog LittleEndian FileBytes

section

variable {C : World → Prop} {E : RuntimeError → World → Prop} {Q : Unit → World → Prop} {w : World}
  {o : Oracle} {env : Env}

/-! ## Journal -/

/-- The update is committed, or at most a temporary file is left behind. -/
def Updated (o : Oracle) (w : World) (u : JournalUpdate) (f : JournalState → Option JournalState)
    (w' : World) : Prop :=
  (∃ t, w' = w.setTmp t ∧
    (o.Updates → ∀ s, JournalState.decode w.disk.stateBin = some s → f s = none)) ∨
  ∃ s s', JournalState.decode w.disk.stateBin = some s ∧ f s = some s' ∧ w' = w.commit u s'

/-- The new record is committed, or at most a temporary file is left behind. -/
def Created (o : Oracle) (w : World) (s : JournalState) (w' : World) : Prop :=
  (∃ t, w' = w.setTmp t ∧ ¬ o.Writes) ∨ w' = w.commit (.create s) s

/-- The journal is removed, or nothing happens. -/
def Removed (o : Oracle) (w w' : World) : Prop :=
  (w' = w ∧ (o.JournalSmooth → w.disk.stateBin = none)) ∨
    (w' = w.dropJournal ∧ w.disk.stateBin ≠ none)

/-- The record with chunk `ci` marked, if it has such a chunk. -/
def markIn (ci : UInt32) (s : JournalState) : Option JournalState :=
  if ci.toNat ≥ s.chunkDone.length then none else some (s.markDone ci)

theorem wp_journalUpdate {Q : Bool → World → Prop} {u : JournalUpdate}
    {f : JournalState → Option JournalState} (hC : ∀ t, C (w.setTmp t))
    (hcommit : ∀ s s', JournalState.decode w.disk.stateBin = some s → f s = some s' →
      C (w.commit u s'))
    (hQ : ∀ b w', Updated o w u f w' → Q b w') : wp (Journal.update o u f) C Q E w :=
  Journal.wp_update hC (fun hf t => hQ _ _ (.inl ⟨t, rfl, hf⟩)) fun s s' hd hs =>
    ⟨hcommit s s' hd hs, hQ _ _ (.inr ⟨s, s', hd, hs, rfl⟩)⟩

theorem wp_journalCreate {Q : Bool → World → Prop} {s : JournalState} (hC : ∀ t, C (w.setTmp t))
    (hcommit : C (w.commit (.create s) s)) (hQ : ∀ b w', Created o w s w' → Q b w') :
    wp (Journal.create o s) C Q E w :=
  Journal.wp_atomicWrite hC (fun hs t => hQ _ _ (.inl ⟨t, rfl, hs⟩)) ⟨hcommit, hQ _ _ (.inr rfl)⟩

theorem wp_journalRemove {Q : Bool → World → Prop}
    (hC : w.disk.stateBin ≠ none → C w.dropJournal) (hQ : ∀ b w', Removed o w w' → Q b w') :
    wp (Journal.remove o) C Q E w :=
  Journal.wp_remove (fun hs => hQ _ _ (.inl ⟨rfl, hs⟩)) fun hn =>
    ⟨hC hn, hQ _ _ (.inr ⟨rfl, hn⟩)⟩

theorem wp_removeJournal (hC : w.disk.stateBin ≠ none → C w.dropJournal)
    (hQ : ∀ w', Removed o w w' → Q () w') : wp (removeJournal o) C Q E w := by
  unfold removeJournal
  rw [wp_bind, wp_get, wp_ite]
  refine ⟨fun _ => ?_, fun h => ?_⟩
  · rw [wp_bind]
    exact wp_journalRemove hC fun _ w' h => by rw [wp_pure]; exact hQ w' h
  · rw [wp_pure]
    exact hQ w (.inl ⟨rfl, fun _ => by simpa using h⟩)

/-! ## Destination file -/

/-- What the destination file may hold once it is open. -/
def DestBase (o : Oracle) (files : Bytes → Option Bytes) (path : Bytes) (fileSize : UInt64)
    (base : Bytes) : Prop :=
  files path = some base ∨
    (files path = none ∨ ¬ o.Smooth) ∧ (base = [] ∨ base = pwrite [] (fileSize - 1).toNat [0])

/-- What the destination file may hold while a chunk is written. -/
def Stage (o : Oracle) (files : Bytes → Option Bytes) (path : Bytes) (fileSize : UInt64)
    (offset : Nat) (data : Bytes) (c : Option Bytes) : Prop :=
  c = files path ∨
    ∃ base i, DestBase o files path fileSize base ∧ c = some (pwrite base offset (data.take i))

theorem Oracle.not_smooth {c : FsCall} (h : o.fails c = true) : ¬ o.Smooth := by
  intro hs; rw [hs c] at h; cases h

theorem World.setFile_self {path : Bytes} {c : Option Bytes} (h : w.disk.files path = c) :
    w.setFile path c = w := by
  have hf : (fun p => if p = path then c else w.disk.files p) = w.disk.files := by
    funext p
    by_cases hp : p = path
    · simp [hp, h]
    · simp [hp]
  rw [World.setFile, hf]

theorem wp_openDest {Q : Bool → World → Prop} {call : FsCall} {path : Bytes}
    (hQ : ∀ b, (b = true → (w.disk.files path).isSome = true) →
      (b = false → w.disk.files path = none ∨ ¬ o.Smooth) → Q b w) :
    wp (openDest o call path) C Q E w := by
  unfold openDest
  rw [wp_bind, wp_get, wp_pure]
  refine hQ _ (fun h => ?_) fun h => ?_
  · exact (Bool.and_eq_true_iff.mp h).2
  · cases hf : o.fails call with
    | true => exact .inr (Oracle.not_smooth hf)
    | false => exact .inl (by simpa [hf] using h)

theorem wp_createDest {path : Bytes} {fileSize : UInt64}
    (hC : C (w.setFile path (some [])) ∧ C (w.setFile path (some (pwrite [] (fileSize - 1).toNat [0]))))
    (hE : ¬ o.Smooth → ∀ e, E e w)
    (hQ : Q () (w.setFile path (some [])) ∧
      Q () (w.setFile path (some (pwrite [] (fileSize - 1).toNat [0])))) :
    wp (createDest o path fileSize) C Q E w := by
  unfold createDest
  rw [wp_ite]
  refine ⟨fun h => ?_, fun _ => ?_⟩
  · rw [wp_throw]; exact hE (Oracle.not_smooth h) _
  rw [wp_bind, wp_step]
  refine ⟨hC.1, ?_⟩
  rw [wp_ite]
  refine ⟨fun _ => ?_, fun _ => ?_⟩
  · rw [wp_step, World.setFile_setFile]; exact ⟨hC.2, hQ.2⟩
  · rw [wp_pure]; exact hQ.1

theorem wp_openOrCreate {path : Bytes} {fileSize : UInt64}
    (hC : ∀ base, DestBase o w.disk.files path fileSize base → C (w.setFile path (some base)))
    (hE : (o.Smooth → w.disk.files path = none ∧ fileSize = 0) → ∀ e c,
      (c = w.disk.files path ∨ ∃ base, DestBase o w.disk.files path fileSize base ∧ c = some base) →
        E e (w.setFile path c))
    (hQ : ∀ base, DestBase o w.disk.files path fileSize base → Q () (w.setFile path (some base))) :
    wp (openOrCreate o path fileSize) C Q E w := by
  have hself : w.setFile path (w.disk.files path) = w := World.setFile_self rfl
  unfold openOrCreate
  rw [wp_bind]
  refine wp_openDest fun b hopen hclosed => ?_
  rw [wp_ite]
  refine ⟨fun hb => ?_, fun hb => ?_⟩
  · rw [wp_pure]
    obtain ⟨base, hbase⟩ := Option.isSome_iff_exists.mp (hopen hb)
    have := hQ base (.inl hbase)
    rwa [World.setFile_self hbase] at this
  have hmiss := hclosed (by simpa using hb)
  have hnew (base : Bytes) (h : base = [] ∨ base = pwrite [] (fileSize - 1).toNat [0]) :
      DestBase o w.disk.files path fileSize base := .inr ⟨hmiss, h⟩
  rw [wp_ite]
  refine ⟨fun _ => ?_, fun hz => ?_⟩
  · rw [wp_bind]
    -- the reopened file fails only by a fault, whatever `createDest` left in it
    have hre (base : Bytes) (hb : DestBase o w.disk.files path fileSize base) :
        wp (do
          let reopened ← openDest o .destReopen path
          if reopened then return () else throw ⟨"CfdpReceiver: cannot open file: ", path⟩)
          C Q E (w.setFile path (some base)) := by
      rw [wp_bind]
      refine wp_openDest fun b _ hclosed => ?_
      rw [wp_ite, wp_pure, wp_throw]
      refine ⟨fun _ => hQ base hb, fun hb' => hE (fun hs => ?_) _ _ (.inr ⟨base, hb, rfl⟩)⟩
      rcases hclosed (by simpa using hb') with h | h
      · simp at h
      · exact absurd hs h
    refine wp_createDest ⟨hC _ (hnew _ (.inl rfl)), hC _ (hnew _ (.inr rfl))⟩ (fun hs e => ?_)
      ⟨hre _ (hnew _ (.inl rfl)), hre _ (hnew _ (.inr rfl))⟩
    have := hE (fun h => absurd h hs) e _ (.inl rfl)
    rwa [hself] at this
  · rw [wp_throw]
    have hz' : fileSize = 0 := by
      apply UInt64.toNat_inj.mp
      have : ¬ 0 < fileSize.toNat := fun h => hz (UInt64.lt_iff_toNat_lt.mpr h)
      show fileSize.toNat = 0
      omega
    have := hE (fun hs => ⟨hmiss.resolve_right (absurd hs), hz'⟩)
      ⟨"CfdpReceiver: cannot open file: ", path⟩ _ (.inl rfl)
    rwa [hself] at this

theorem foldl_writeBytes (path base : Bytes) (offset : Nat) (data : Bytes) (n : Nat)
    (hw : w.disk.files path = some base) :
    ((List.range n).map fun i (w : World) =>
        w.setFile path (some (pwrite base offset (data.take (i + 1))))).foldl (fun s f => f s) w =
      w.setFile path (some (pwrite base offset (data.take n))) := by
  induction n with
  | zero => simp [World.setFile_self hw]
  | succ n ih => rw [List.range_succ, List.map_append, List.foldl_append, ih]; simp

theorem wp_writeBytes {path base : Bytes} {offset : Nat} {data : Bytes}
    (hw : w.disk.files path = some base)
    (hC : ∀ i, C (w.setFile path (some (pwrite base offset (data.take i)))))
    (hQ : Q () (w.setFile path (some (pwrite base offset data)))) :
    wp (writeBytes path offset data) C Q E w := by
  unfold writeBytes
  rw [wp_bind, wp_get, hw, Option.getD_some]
  refine wp_steps (I := fun x => ∃ i, x = w.setFile path (some (pwrite base offset (data.take i))))
    ⟨0, by simp [World.setFile_self hw]⟩ ?_ ?_ ?_
  · intro f hf x hx
    obtain ⟨i, -, rfl⟩ := List.mem_map.mp hf
    obtain ⟨j, rfl⟩ := hx
    exact ⟨i + 1, World.setFile_setFile _ _ _ _⟩
  · rintro x ⟨i, rfl⟩
    exact hC i
  · rw [foldl_writeBytes _ _ _ _ _ hw, List.take_length]
    exact hQ

theorem wp_writeChunk {path base : Bytes} {offset : UInt64} {data : Bytes}
    (hw : w.disk.files path = some base)
    (hC : ∀ i, C (w.setFile path (some (pwrite base offset.toNat (data.take i)))))
    (hE : (o.Smooth → 2 ^ 63 ≤ offset.toNat) → ∀ e i,
      E e (w.setFile path (some (pwrite base offset.toNat (data.take i)))))
    (hQ : Q () (w.setFile path (some (pwrite base offset.toNat data)))) :
    wp (writeChunk o path offset data) C Q E w := by
  unfold writeChunk
  rw [wp_ite]
  refine ⟨fun h => ?_, fun _ => ?_⟩
  · rw [wp_throw]
    have := hE (fun _ => h) ⟨"CfdpReceiver: write failed: ", path⟩ 0
    rwa [List.take_zero, pwrite_nil, World.setFile_self hw] at this
  rw [wp_ite]
  refine ⟨fun h => ?_, fun _ => wp_writeBytes hw hC hQ⟩
  rw [wp_bind]
  refine wp_writeBytes hw (fun i => by rw [List.take_take]; exact hC _) ?_
  rw [wp_throw]
  exact hE (fun hs => absurd hs (Oracle.not_smooth h)) _ _

/-! ## Completion -/

/-- What `check_completion` does. -/
inductive Completion where
  | silent
  | nak (pdu : Bytes)
  | verify

/-- The NAK for the slots of the packet list that hold no valid packet. -/
def CfdpReceiver.packetNak (rx : CfdpReceiver) : Option Bytes :=
  if rx.packetList.computeNakRanges = [] then none
  else some (serializeNak ⟨rx.state.transactionId,
    rx.packetList.computeNakRanges.map fun r => ⟨rx.currentChunkIndex, r.1, r.2⟩⟩)

theorem CfdpReceiver.packetNak_of_ne {rx : CfdpReceiver} (h : rx.packetList.computeNakRanges ≠ []) :
    rx.packetNak = some (serializeNak ⟨rx.state.transactionId,
      rx.packetList.computeNakRanges.map fun r => ⟨rx.currentChunkIndex, r.1, r.2⟩⟩) := if_neg h

/-- The first missing range that starts at a chunk already sent. -/
def CfdpReceiver.sentMissing (rx : CfdpReceiver) : Option ChunkNakRange :=
  rx.state.computeMissingChunks.find? fun cr => !(cr.firstChunk > rx.maxChunkSeen)

def CfdpReceiver.completion (rx : CfdpReceiver) : Completion :=
  if !rx.state.eofReceived then .silent
  else if rx.unfinished then
    match rx.packetNak with
    | some pdu => .nak pdu
    | none => .silent
  else
    match rx.sentMissing with
    | some cr => .nak (rx.chunkNak cr.firstChunk)
    | none => if rx.state.computeMissingChunks ≠ [] then .silent else .verify

/-- The final ACK is sent and remembered. -/
def World.finalAck (w : World) : World :=
  (w.setRx fun rx => { rx with lastAckedId := rx.state.transactionId }).send
    (AckPdu.raw ⟨w.rx.state.transactionId, uint32Max⟩)

theorem wp_sendNakPackets (hC : ∀ pdu, w.rx.packetNak = some pdu → C (w.send pdu))
    (hsome : ∀ pdu, w.rx.packetNak = some pdu → Q () (w.send pdu))
    (hnone : w.rx.packetNak = none → Q () w) :
    wp (sendNakPackets w.rx.currentChunkIndex) C Q E w := by
  unfold sendNakPackets
  rw [wp_bind, wp_get, wp_ite]
  refine ⟨fun h => ?_, fun h => ?_⟩
  · rw [wp_pure]; exact hnone (by rw [CfdpReceiver.packetNak, if_pos h])
  · have hp := CfdpReceiver.packetNak_of_ne h
    unfold transportSend
    rw [wp_step]
    exact ⟨hC _ hp, hsome _ hp⟩

theorem wp_sendAck {ci : UInt32} :
    wp (sendAck ci) C Q E w ↔
      C (w.send (AckPdu.raw ⟨w.rx.state.transactionId, ci⟩)) ∧
        Q () (w.send (AckPdu.raw ⟨w.rx.state.transactionId, ci⟩)) := by
  unfold sendAck
  rw [wp_bind, wp_get, transportSend, wp_step]

theorem wp_checkCompletion (hsilent : w.rx.completion = .silent → Q () w)
    (hnak : ∀ pdu, w.rx.completion = .nak pdu → C (w.send pdu) ∧ Q () (w.send pdu))
    (hbad : w.rx.completion = .verify → verifyFileChecksum env o w = false →
      (w.disk.stateBin ≠ none → C (w.setRx CfdpReceiver.deactivate).dropJournal) ∧
        ∀ w', Removed o (w.setRx CfdpReceiver.deactivate) w' → Q () w')
    (hok : w.rx.completion = .verify → verifyFileChecksum env o w = true →
      C w.finalAck ∧
        (w.disk.stateBin ≠ none → C (w.finalAck.setRx CfdpReceiver.deactivate).dropJournal) ∧
        ∀ w', Removed o (w.finalAck.setRx CfdpReceiver.deactivate) w' → Q () w') :
    wp (checkCompletion env o) C Q E w := by
  generalize hc : w.rx.completion = c at hsilent hnak hbad hok
  unfold CfdpReceiver.completion at hc
  rw [checkCompletion, wp_bind, wp_get, wp_ite]
  refine ⟨fun he => ?_, fun he => ?_⟩
  · rw [if_pos he] at hc
    rw [wp_pure]; exact hsilent hc.symm
  rw [if_neg he] at hc
  rw [wp_ite]
  refine ⟨fun hu => ?_, fun hu => ?_⟩
  · rw [if_pos hu] at hc
    refine wp_sendNakPackets (fun pdu hp => ?_) (fun pdu hp => ?_) fun hp => ?_ <;>
      simp only [hp] at hc
    · exact (hnak pdu hc.symm).1
    · exact (hnak pdu hc.symm).2
    · exact hsilent hc.symm
  rw [if_neg hu] at hc
  show wp (match w.rx.sentMissing with
    | some cr => _
    | none => _) C Q E w
  cases hm : w.rx.sentMissing with
  | some cr =>
    simp only [hm] at hc ⊢
    unfold transportSend
    rw [wp_step]
    exact hnak _ hc.symm
  | none =>
    simp only [hm] at hc ⊢
    rw [wp_ite]
    refine ⟨fun hne => ?_, fun hne => ?_⟩
    · rw [if_pos hne] at hc
      rw [wp_pure]; exact hsilent hc.symm
    rw [if_neg hne] at hc
    rw [wp_ite]
    refine ⟨fun hv => ?_, fun hv => ?_⟩
    · obtain ⟨h1, h2⟩ := hbad hc.symm (by simpa using hv)
      rw [wp_bind, wp_modify, wp_bind]
      exact wp_journalRemove h1 fun _ w' h => by rw [wp_pure]; exact h2 w' h
    · obtain ⟨h1, h2, h3⟩ := hok hc.symm (by simpa using hv)
      rw [wp_bind, wp_modify, wp_bind, wp_sendAck]
      refine ⟨h1, ?_⟩
      rw [wp_bind, wp_modify, wp_bind]
      exact wp_journalRemove h2 fun _ w' h => by rw [wp_pure]; exact h3 w' h

/-! ## Flushing a chunk -/

/-- The chunk is in the file and marked in memory. -/
def World.wroteChunk (w : World) (ci : UInt32) (base : Bytes) : World :=
  (w.setFile w.rx.state.recvFilePath
    (some (pwrite base (w.rx.state.chunkFileOffset ci).toNat w.rx.packetList.assemble))).setRx
      fun rx => { rx with state := rx.state.markDone ci }

theorem wp_flushChunk {ci : UInt32}
    (hstage : ∀ c, Stage o w.disk.files w.rx.state.recvFilePath w.rx.state.fileSize
      (w.rx.state.chunkFileOffset ci).toNat w.rx.packetList.assemble c →
        C (w.setFile w.rx.state.recvFilePath c))
    (herr : (o.Smooth → (w.disk.files w.rx.state.recvFilePath = none ∧ w.rx.state.fileSize = 0) ∨
        2 ^ 63 ≤ (w.rx.state.chunkFileOffset ci).toNat) →
      ∀ e c, Stage o w.disk.files w.rx.state.recvFilePath w.rx.state.fileSize
        (w.rx.state.chunkFileOffset ci).toNat w.rx.packetList.assemble c →
          E e (w.setFile w.rx.state.recvFilePath c))
    (hmark : ∀ base, DestBase o w.disk.files w.rx.state.recvFilePath w.rx.state.fileSize base →
      (∀ t, C ((w.wroteChunk ci base).setTmp t)) ∧
        (∀ s s', JournalState.decode w.disk.stateBin = some s → markIn ci s = some s' →
          C ((w.wroteChunk ci base).commit (.chunkDone ci) s')) ∧
        ∀ w', Updated o (w.wroteChunk ci base) (.chunkDone ci) (markIn ci) w' →
          C (w'.send (AckPdu.raw ⟨w'.rx.state.transactionId, ci⟩)) ∧
          (w.rx.state.eofReceived = true → wp (checkCompletion env o) C Q E
            ((w'.send (AckPdu.raw ⟨w'.rx.state.transactionId, ci⟩)).setRx CfdpReceiver.clearList)) ∧
          (w.rx.state.eofReceived = false →
            Q () ((w'.send (AckPdu.raw ⟨w'.rx.state.transactionId, ci⟩)).setRx
              CfdpReceiver.clearList))) :
    wp (flushChunk env o ci) C Q E w := by
  have htake0 (base : Bytes) : pwrite base (w.rx.state.chunkFileOffset ci).toNat
      (w.rx.packetList.assemble.take 0) = base := by simp
  rw [flushChunk, wp_bind, wp_get, wp_bind]
  refine wp_openOrCreate (fun base hb => hstage _ (.inr ⟨base, 0, hb, by rw [htake0]⟩)) ?_ ?_
  · rintro hs e c (rfl | ⟨base, hb, rfl⟩)
    · exact herr (fun h => .inl (hs h)) e _ (.inl rfl)
    · exact herr (fun h => .inl (hs h)) e _ (.inr ⟨base, 0, hb, by rw [htake0]⟩)
  intro base hb
  rw [wp_bind]
  refine wp_writeChunk (World.setFile_files _ _ _) (fun i => ?_) (fun hs e i => ?_) ?_
  · rw [World.setFile_setFile]; exact hstage _ (.inr ⟨base, i, hb, rfl⟩)
  · rw [World.setFile_setFile]; exact herr (fun h => .inr (hs h)) e _ (.inr ⟨base, i, hb, rfl⟩)
  rw [World.setFile_setFile, wp_bind, wp_modify, wp_bind]
  obtain ⟨h1, h2, h3⟩ := hmark base hb
  refine wp_journalUpdate h1 h2 fun _ w' hu => ?_
  obtain ⟨h4, h5, h6⟩ := h3 w' hu
  rw [wp_bind, wp_sendAck]
  refine ⟨h4, ?_⟩
  rw [wp_bind, wp_modify, wp_ite, wp_pure]
  exact ⟨h5, fun he => h6 (by simpa using he)⟩

/-! ## Handlers -/

/-- `handle_metadata` takes the Metadata as the start of a transfer. -/
def CfdpReceiver.accepts (rx : CfdpReceiver) (metadata : MetadataPdu) : Bool :=
  !(rx.transferActive && rx.state.transactionId == metadata.transactionId) &&
    (!(!rx.transferActive && rx.lastAckedId == metadata.transactionId) && metadata.sane)

/-- `handle_metadata` repeats the final ACK. -/
def CfdpReceiver.repeatsAck (rx : CfdpReceiver) (metadata : MetadataPdu) : Bool :=
  !rx.transferActive && rx.lastAckedId == metadata.transactionId

theorem wp_handleMetadata {metadata : MetadataPdu}
    (hignore : w.rx.repeatsAck metadata = false → w.rx.accepts metadata = false → Q () w)
    (hagain : w.rx.repeatsAck metadata = true →
      C (w.send (AckPdu.raw ⟨w.rx.state.transactionId, uint32Max⟩)) ∧
        Q () (w.send (AckPdu.raw ⟨w.rx.state.transactionId, uint32Max⟩)))
    (hstart : w.rx.accepts metadata = true →
      (w.disk.stateBin ≠ none → C w.dropJournal) ∧
        ∀ w₁, Removed o w w₁ → ∀ w₂,
          w₂ = w₁.setRx (fun rx => { rx with state := rx.state.start env o metadata }) →
          (∀ t, C (w₂.setTmp t)) ∧ C (w₂.commit (.create w₂.rx.state) w₂.rx.state) ∧
            ∀ w₃, Created o w₂ w₂.rx.state w₃ → Q () (w₃.setRx CfdpReceiver.activate)) :
    wp (handleMetadata env o metadata) C Q E w := by
  rw [handleMetadata, wp_bind, wp_get, wp_ite]
  refine ⟨fun hd => ?_, fun hd => ?_⟩
  · rw [wp_pure]
    have ha : w.rx.transferActive = true := (Bool.and_eq_true_iff.mp hd).1
    exact hignore (by simp [CfdpReceiver.repeatsAck, ha]) (by simp [CfdpReceiver.accepts, hd])
  rw [wp_ite]
  refine ⟨fun hf => ?_, fun hf => ?_⟩
  · rw [wp_sendAck]; exact hagain hf
  have hf' : w.rx.repeatsAck metadata = false := by simpa [CfdpReceiver.repeatsAck] using hf
  rw [wp_ite]
  refine ⟨fun hs => ?_, fun hs => ?_⟩
  · rw [wp_pure]
    have hs' : metadata.sane = false := by simpa using hs
    exact hignore hf' (by simp [CfdpReceiver.accepts, hs'])
  have hacc : w.rx.accepts metadata = true := by
    have hs' : metadata.sane = true := by simpa using hs
    have hd' := Bool.eq_false_iff.mpr hd
    have hf'' := Bool.eq_false_iff.mpr hf
    rw [CfdpReceiver.accepts, hd', hf'', hs']; rfl
  obtain ⟨h1, h2⟩ := hstart hacc
  rw [wp_bind]
  refine wp_removeJournal h1 fun w₁ hw₁ => ?_
  obtain ⟨h3, h4, h5⟩ := h2 w₁ hw₁ _ rfl
  rw [wp_bind, wp_modify, wp_bind, wp_get, wp_bind]
  refine wp_journalCreate h3 h4 fun _ w₃ hw₃ => ?_
  rw [wp_modify]
  exact h5 w₃ hw₃

/-- The NAK sent when a Data PDU of chunk `ci` makes the receiver leave its chunk. -/
def CfdpReceiver.leaveNak (rx : CfdpReceiver) (ci : UInt32) : Option Bytes :=
  if ci != rx.currentChunkIndex && rx.unfinished then rx.packetNak else none

/-- The fields after `ci` is made the chunk in progress. -/
def CfdpReceiver.enter (ci totalPackets : UInt32) (rx : CfdpReceiver) : CfdpReceiver :=
  if ci != rx.currentChunkIndex then
    { rx with packetList := rx.packetList.clear.init totalPackets, currentChunkIndex := ci }
  else rx

/-- The fields after a Data PDU of a chunk that is not done, before a flush. -/
def CfdpReceiver.take (dpdu : DataPdu) (rx : CfdpReceiver) : CfdpReceiver :=
  CfdpReceiver.store dpdu
    (CfdpReceiver.enter dpdu.chunkIndex dpdu.totalPackets (CfdpReceiver.see dpdu.chunkIndex rx))

/-- Transmit a PDU, if there is one. -/
def World.sendOption (w : World) : Option Bytes → World
  | some pdu => w.send pdu
  | none => w

@[simp] theorem World.sendOption_rx (w : World) (pdu : Option Bytes) :
    (w.sendOption pdu).rx = w.rx := by
  cases pdu <;> rfl

@[simp] theorem World.sendOption_disk (w : World) (pdu : Option Bytes) :
    (w.sendOption pdu).disk = w.disk := by
  cases pdu <;> rfl

/-- What holds wherever it ends holds after the NAK of the previous chunk. -/
theorem wp_nakUnfinished {Q : Unit → World → Prop} (hQ : ∀ w', Q () w') :
    wp nakUnfinished (fun _ => True) Q E w := by
  unfold nakUnfinished
  rw [wp_bind, wp_get, wp_ite, wp_pure]
  exact ⟨fun _ => wp_sendNakPackets (fun _ _ => trivial) (fun _ _ => hQ _) fun _ => hQ _,
    fun _ => hQ _⟩

theorem wp_switchChunk {ci totalPackets : UInt32}
    (hC : ∀ pdu, w.rx.leaveNak ci = some pdu → C (w.send pdu))
    (hQ : Q () ((w.sendOption (w.rx.leaveNak ci)).setRx (CfdpReceiver.enter ci totalPackets))) :
    wp (switchChunk ci totalPackets) C Q E w := by
  unfold switchChunk
  rw [wp_bind, wp_get, wp_ite]
  refine ⟨fun h => ?_, fun h => ?_⟩
  · have henter (w' : World) (hw : w'.rx = w.rx) : w'.setRx (CfdpReceiver.enter ci totalPackets) =
        w'.setRx fun rx =>
          { rx with packetList := rx.packetList.clear.init totalPackets, currentChunkIndex := ci } := by
      simp only [World.setRx, CfdpReceiver.enter, hw, h, if_true]
    simp only [CfdpReceiver.leaveNak, h, Bool.true_and] at hC hQ
    rw [wp_bind, nakUnfinished, wp_bind, wp_get, wp_ite]
    refine ⟨fun hu => ?_, fun hu => ?_⟩
    · rw [if_pos hu] at hQ
      simp only [hu, if_true] at hC
      refine wp_sendNakPackets hC (fun pdu hp => ?_) fun hp =>
        ?_ <;> rw [hp, henter _ (by simp)] at hQ <;>
        rw [wp_modify] <;> exact hQ
    · rw [if_neg hu, henter _ (by simp)] at hQ
      rw [wp_pure, wp_modify]; exact hQ
  · have hid : (w.sendOption (w.rx.leaveNak ci)).setRx (CfdpReceiver.enter ci totalPackets) = w := by
      simp [CfdpReceiver.leaveNak, CfdpReceiver.enter, h, World.sendOption, World.setRx]
    rw [wp_pure]
    rwa [hid] at hQ

theorem wp_handleData {dpdu : DataPdu} (hdrop : w.rx.acceptsData dpdu = false → Q () w)
    (hdone : w.rx.acceptsData dpdu = true → w.rx.state.isDone dpdu.chunkIndex = true →
      ∀ w₁, w₁ = w.setRx (CfdpReceiver.see dpdu.chunkIndex) →
        (dpdu.packetIndex = 0 →
          C (w₁.send (AckPdu.raw ⟨w.rx.state.transactionId, dpdu.chunkIndex⟩)) ∧
            Q () (w₁.send (AckPdu.raw ⟨w.rx.state.transactionId, dpdu.chunkIndex⟩))) ∧
          (dpdu.packetIndex ≠ 0 → Q () w₁))
    (htake : w.rx.acceptsData dpdu = true → w.rx.state.isDone dpdu.chunkIndex = false →
      (∀ pdu, w.rx.leaveNak dpdu.chunkIndex = some pdu →
        C ((w.setRx (CfdpReceiver.see dpdu.chunkIndex)).send pdu)) ∧
      ∀ w₁, w₁ = (w.sendOption (w.rx.leaveNak dpdu.chunkIndex)).setRx (CfdpReceiver.take dpdu) →
        (w₁.rx.packetList.isComplete = true → wp (flushChunk env o dpdu.chunkIndex) C Q E w₁) ∧
          (w₁.rx.packetList.isComplete = false → Q () w₁)) :
    wp (handleData env o dpdu) C Q E w := by
  have hsee : (CfdpReceiver.see dpdu.chunkIndex w.rx).state = w.rx.state := by
    unfold CfdpReceiver.see; split <;> rfl
  have hleave : (CfdpReceiver.see dpdu.chunkIndex w.rx).leaveNak dpdu.chunkIndex =
      w.rx.leaveNak dpdu.chunkIndex := by
    unfold CfdpReceiver.see; split <;> rfl
  rw [handleData, wp_bind, wp_get, wp_ite]
  refine ⟨fun h => ?_, fun h => ?_⟩
  · rw [wp_pure]; exact hdrop (by simpa using h)
  have hacc : w.rx.acceptsData dpdu = true := by simpa using h
  rw [wp_bind, wp_modify, wp_ite]
  refine ⟨fun hd => ?_, fun hd => ?_⟩
  · obtain ⟨h1, h2⟩ := hdone hacc hd _ rfl
    rw [wp_ite, wp_sendAck, wp_pure]
    simp only [World.setRx_rx, hsee, beq_iff_eq]
    exact ⟨h1, h2⟩
  · obtain ⟨h1, h2⟩ := htake hacc (by simpa using hd)
    have hw : (((w.setRx (CfdpReceiver.see dpdu.chunkIndex)).sendOption
        (w.rx.leaveNak dpdu.chunkIndex)).setRx
          (CfdpReceiver.enter dpdu.chunkIndex dpdu.totalPackets)).setRx (CfdpReceiver.store dpdu) =
        (w.sendOption (w.rx.leaveNak dpdu.chunkIndex)).setRx (CfdpReceiver.take dpdu) := by
      cases w.rx.leaveNak dpdu.chunkIndex <;> rfl
    obtain ⟨h3, h4⟩ := h2 _ rfl
    rw [wp_bind]
    refine wp_switchChunk (by simpa only [World.setRx_rx, hleave] using h1) ?_
    rw [World.setRx_rx, hleave, wp_bind, wp_modify, wp_bind, wp_get, wp_ite, hw, wp_pure]
    exact ⟨h3, fun hc => h4 (by simpa using hc)⟩

/-- The Eof concerns the active transfer. -/
def CfdpReceiver.acceptsEof (rx : CfdpReceiver) (eof : EofPdu) : Bool :=
  rx.transferActive && eof.transactionId == rx.state.transactionId

theorem CfdpReceiver.active_of_acceptsEof {rx : CfdpReceiver} {eof : EofPdu}
    (h : rx.acceptsEof eof = true) : rx.transferActive = true := by
  simp only [acceptsEof, Bool.and_eq_true] at h
  exact h.1

theorem wp_handleEof {eof : EofPdu} (hdrop : w.rx.acceptsEof eof = false → Q () w)
    (hagain : w.rx.acceptsEof eof = true → w.rx.state.eofReceived = true →
      wp (checkCompletion env o) C Q E w)
    (hfirst : w.rx.acceptsEof eof = true → w.rx.state.eofReceived = false →
      (∀ t, C (w.setTmp t)) ∧
        (∀ s, JournalState.decode w.disk.stateBin = some s → C (w.commit .eofReceived s.markEof)) ∧
        ∀ w', Updated o w .eofReceived (fun s => some s.markEof) w' →
          wp (checkCompletion env o) C Q E
            (w'.setRx fun rx => { rx with state := rx.state.markEof })) :
    wp (handleEof env o eof) C Q E w := by
  rw [handleEof, wp_bind, wp_get, wp_ite]
  refine ⟨fun h => ?_, fun h => ?_⟩
  · rw [wp_pure]
    have : w.rx.transferActive = false := by simpa using h
    exact hdrop (by simp [CfdpReceiver.acceptsEof, this])
  rw [wp_ite]
  refine ⟨fun ht => ?_, fun ht => ?_⟩
  · rw [wp_pure]
    exact hdrop (by simp only [CfdpReceiver.acceptsEof]; simp at ht; simp [ht])
  have hacc : w.rx.acceptsEof eof = true := by
    simp at h ht; simp [CfdpReceiver.acceptsEof, h, ht]
  rw [wp_bind, noteEof, wp_bind, wp_get, wp_ite]
  refine ⟨fun he => ?_, fun he => ?_⟩
  · obtain ⟨h1, h2, h3⟩ := hfirst hacc (by simpa using he)
    rw [wp_bind]
    refine wp_journalUpdate h1 (fun s s' hd hs => by cases hs; exact h2 s hd) fun _ w' hu => ?_
    rw [wp_modify]
    exact h3 w' hu
  · rw [wp_pure]
    exact hagain hacc (by simpa using he)

theorem wp_handleResumeQuery {query : ResumeQueryPdu} :
    wp (handleResumeQuery query) C Q E w ↔
      C (w.send (ResumeInfoPdu.raw ⟨query.transactionId, firstMissingChunk w.rx query.transactionId⟩)) ∧
      Q () (w.send (ResumeInfoPdu.raw
        ⟨query.transactionId, firstMissingChunk w.rx query.transactionId⟩)) := by
  unfold handleResumeQuery
  rw [wp_bind, wp_get, transportSend, wp_step]

/-- What `on_boot` reads from the journal: whether it succeeded, and the record after. -/
def World.loads (o : Oracle) (w : World) : Bool × JournalState :=
  if o.fails .journalOpen then (false, w.rx.state)
  else JournalState.readFromDisk o.oddBool w.disk.stateBin w.rx.state

theorem wp_onBoot (hnone : w.disk.stateBin = none → Q () w)
    (hbad : w.disk.stateBin ≠ none → (w.loads o).1 = false →
      ∀ w₁, w₁ = w.setRx (fun rx => { rx with state := (w.loads o).2 }) →
        C w₁.dropJournal ∧ ∀ w', Removed o w₁ w' → Q () w')
    (hok : w.disk.stateBin ≠ none → (w.loads o).1 = true →
      ∀ w₁, w₁ = (w.setRx (fun rx => { rx with state := (w.loads o).2 })).setRx
          CfdpReceiver.activate →
        ((w.loads o).2.computeMissingChunks = [] ∧ (w.loads o).2.eofReceived = true →
          wp (checkCompletion env o) C Q E w₁) ∧
        (¬ ((w.loads o).2.computeMissingChunks = [] ∧ (w.loads o).2.eofReceived = true) →
          Q () w₁)) :
    wp (onBoot env o) C Q E w := by
  rw [onBoot, wp_bind, wp_get, wp_ite]
  refine ⟨fun h => ?_, fun h => ?_⟩
  · rw [wp_pure]; exact hnone (Option.isNone_iff_eq_none.mp h)
  have hne : w.disk.stateBin ≠ none := fun hn => h (by rw [hn]; rfl)
  have hl : (if o.fails .journalOpen then (false, w.rx.state)
      else JournalState.readFromDisk o.oddBool w.disk.stateBin w.rx.state) = w.loads o := rfl
  rw [hl]
  generalize w.loads o = l at hbad hok
  obtain ⟨ok, state⟩ := l
  show wp (do
    Prog.modify fun w => w.setRx fun rx => { rx with state }
    if !ok then _ else _) C Q E w
  rw [wp_bind, wp_modify, wp_ite]
  refine ⟨fun hb => ?_, fun hb => ?_⟩
  · obtain ⟨h1, h2⟩ := hbad hne (by simpa using hb) _ rfl
    rw [wp_bind]
    exact wp_journalRemove (fun _ => h1) fun _ w' h => by rw [wp_pure]; exact h2 w' h
  · obtain ⟨h1, h2⟩ := hok hne (by simpa using hb) _ rfl
    rw [wp_bind, wp_modify, wp_ite, wp_pure]
    exact ⟨h1, h2⟩

end

end Cfdp
