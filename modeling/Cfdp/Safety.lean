import Cfdp.Transfer

/-!
# Safety of one transfer

The invariant of a transfer `x` (`Held` of a running receiver, `Kept` of what a
crash leaves) and its proof: one lemma for each way a handler changes the world,
then one for each handler. `since` is the length of the log when the transfer
began; only final ACKs after it are about `x`. `rest` is what the destination has
beyond the length of the source file; without it the invariant is `Inv`.
-/

namespace Cfdp

open Crash Prog LittleEndian FileBytes

/-- A final ACK as the sender reads it, whatever its transaction. -/
def IsFinalAck (pdu : Bytes) : Prop := IsAck pdu ∧ rd32 (pdu.drop 5) = uint32Max

theorem rd32_ack (ack : AckPdu) : rd32 (ack.raw.drop 5) = ack.chunkIndex := rd32_le32' _

theorem isFinalAck_raw (t : UInt32) : IsFinalAck (AckPdu.raw ⟨t, uint32Max⟩) :=
  ⟨isAck_raw _, rd32_ack _⟩

theorem not_isFinalAck_ack {t ci : UInt32} (h : ci ≠ uint32Max) : ¬ IsFinalAck (AckPdu.raw ⟨t, ci⟩) :=
  fun hf => h ((rd32_ack ⟨t, ci⟩).symm.trans hf.2)

namespace Transfer

variable {env : Env} {x : Transfer} {rest : Bytes} {since : Nat} {o : Oracle} {w w' : World}

/-- What a crash leaves of the transfer. -/
structure Stored (env : Env) (x : Transfer) (since : Nat) (disk : Disk) (log : List Event) : Prop where
  fits : x.Fits (disk.files (x.path env))
  journal : JournalAll (fun s => x.Matches env s ∧ x.MarksStored (disk.files (x.path env)) s) disk
  final : ∀ pdu, IsFinalAck pdu → .sent pdu ∈ log.drop since →
    disk.files (x.path env) = some x.file

/-- What a running receiver holds of the transfer. -/
structure Inv (env : Env) (x : Transfer) (since : Nat) (w : World) : Prop extends
    Stored env x since w.disk w.log where
  record : w.rx.transferActive = true → x.Matches env w.rx.state
  marks : x.MarksStored (w.disk.files (x.path env)) w.rx.state
  slots : w.rx.transferActive = true → w.rx.currentChunkIndex ≠ uint32Max →
    x.SlotsOk w.rx.currentChunkIndex.toNat w.rx.packetList
  acked : w.rx.lastAckedId = x.tid → w.disk.files (x.path env) = some x.file

/-- With `rest` behind the source file its checksum is another one, unless there is nothing. -/
def Detects (env : Env) (x : Transfer) (rest : Bytes) : Prop :=
  rest = [] ∨ Crc.crc32File env.crc32 (x.file ++ rest) ≠ x.checksum env.crc32

/-- What a crash leaves of the transfer, if the destination has `rest` beyond the length of the
source file. -/
structure Kept (env : Env) (x : Transfer) (rest : Bytes) (since : Nat) (disk : Disk)
    (log : List Event) :
    Prop where
  rest : x.surplus (disk.files (x.path env)) = rest
  journal : JournalAll (fun s => x.Matches env s ∧ x.MarksStored (disk.files (x.path env)) s) disk
  final : ∀ pdu, IsFinalAck pdu → .sent pdu ∈ log.drop since →
    disk.files (x.path env) = some x.file

/-- What a running receiver holds of it. -/
structure Held (env : Env) (x : Transfer) (rest : Bytes) (since : Nat) (w : World) : Prop extends
    Kept env x rest since w.disk w.log where
  record : w.rx.transferActive = true → x.Matches env w.rx.state
  marks : x.MarksStored (w.disk.files (x.path env)) w.rx.state
  slots : w.rx.transferActive = true → w.rx.currentChunkIndex ≠ uint32Max →
    x.SlotsOk w.rx.currentChunkIndex.toNat w.rx.packetList
  acked : w.rx.lastAckedId = x.tid → w.disk.files (x.path env) = some x.file

theorem stored_iff {disk : Disk} {log : List Event} :
    Stored env x since disk log ↔ Kept env x [] since disk log :=
  ⟨fun h => ⟨fits_iff.mp h.fits, h.journal, h.final⟩, fun h => ⟨fits_iff.mpr h.rest, h.journal, h.final⟩⟩

theorem inv_iff : Inv env x since w ↔ Held env x [] since w :=
  ⟨fun h => ⟨stored_iff.mp h.toStored, h.record, h.marks, h.slots, h.acked⟩,
    fun h => ⟨stored_iff.mpr h.toKept, h.record, h.marks, h.slots, h.acked⟩⟩

/-! ## Changes of the world -/

theorem mem_drop_append {α : Type} {l : List α} {n : Nat} {a b : α} (h : a ∈ (l ++ [b]).drop n) :
    a ∈ l.drop n ∨ a = b := by
  rw [List.drop_append] at h
  rcases List.mem_append.mp h with h | h
  · exact .inl h
  · exact .inr (List.mem_singleton.mp (List.mem_of_mem_drop h))

/-- Changing the fields. -/
theorem Held.setRx (h : Held env x rest since w) {f : CfdpReceiver → CfdpReceiver}
    (hrec : (f w.rx).transferActive = true → x.Matches env (f w.rx).state)
    (hmarks : x.MarksStored (w.disk.files (x.path env)) (f w.rx).state)
    (hslots : (f w.rx).transferActive = true → (f w.rx).currentChunkIndex ≠ uint32Max →
      x.SlotsOk (f w.rx).currentChunkIndex.toNat (f w.rx).packetList)
    (hacked : (f w.rx).lastAckedId = x.tid → w.disk.files (x.path env) = some x.file) :
    Held env x rest since (w.setRx f) :=
  ⟨h.toKept, hrec, hmarks, hslots, hacked⟩

theorem Held.setTmp (h : Held env x rest since w) (t : Option Bytes) :
    Held env x rest since (w.setTmp t) :=
  ⟨⟨h.rest, h.journal, h.final⟩, h.record, h.marks, h.slots, h.acked⟩

theorem Held.setFile (h : Held env x rest since w) {c : Option Bytes}
    (he : x.Extends (w.disk.files (x.path env)) c)
    (hs : x.surplus c = x.surplus (w.disk.files (x.path env))) :
    Held env x rest since (w.setFile (x.path env) c) := by
  have hf : (w.setFile (x.path env) c).disk.files (x.path env) = c := World.setFile_files _ _ _
  refine ⟨⟨by rw [hf, hs]; exact h.rest, ?_, ?_⟩, h.record, by rw [hf]; exact h.marks.mono he, h.slots,
    fun ha => by rw [hf]; exact he.same (h.acked ha)⟩
  · intro c' hc'
    obtain ⟨s, rfl, hlen, hm, hs⟩ := h.journal c' hc'
    exact ⟨s, rfl, hlen, hm, by rw [hf]; exact hs.mono he⟩
  · intro pdu hp hmem
    rw [hf]; exact he.same (h.final pdu hp hmem)

theorem Held.commit (h : Held env x rest since w) {s : JournalState} (hm : x.Matches env s)
    (hs : x.MarksStored (w.disk.files (x.path env)) s) (u : JournalUpdate) :
    Held env x rest since (w.commit u s) := by
  refine ⟨⟨h.rest, journalAll_some rfl ⟨hm, hs⟩ hm.sane.flags_lt, ?_⟩, h.record, h.marks, h.slots,
    h.acked⟩
  intro pdu hp hmem
  rcases mem_drop_append hmem with hmem | hmem
  · exact h.final pdu hp hmem
  · cases hmem

theorem Kept.dropJournal (h : Kept env x rest since w.disk w.log) :
    Kept env x rest since w.dropJournal.disk w.dropJournal.log := by
  refine ⟨h.rest, journalAll_dropJournal, fun pdu hp hmem => ?_⟩
  rcases mem_drop_append hmem with hmem | hmem
  · exact h.final pdu hp hmem
  · cases hmem

theorem Kept.send (h : Kept env x rest since w.disk w.log) (pdu : Bytes)
    (hf : IsFinalAck pdu → w.disk.files (x.path env) = some x.file) :
    Kept env x rest since (w.send pdu).disk (w.send pdu).log := by
  refine ⟨h.rest, h.journal, fun pdu' hp hmem => ?_⟩
  rcases mem_drop_append hmem with hmem | hmem
  · exact h.final pdu' hp hmem
  · cases hmem; exact hf hp

theorem Kept.removed (h : Kept env x rest since w.disk w.log) (hr : Removed o w w') :
    Kept env x rest since w'.disk w'.log := by
  rcases hr with ⟨rfl, -⟩ | ⟨rfl, -⟩
  · exact h
  · exact h.dropJournal

theorem Held.dropJournal (h : Held env x rest since w) : Held env x rest since w.dropJournal :=
  ⟨h.toKept.dropJournal, h.record, h.marks, h.slots, h.acked⟩

theorem Held.send (h : Held env x rest since w) (pdu : Bytes)
    (hf : IsFinalAck pdu → w.disk.files (x.path env) = some x.file) :
    Held env x rest since (w.send pdu) :=
  ⟨h.toKept.send pdu hf, h.record, h.marks, h.slots, h.acked⟩

theorem Held.removed (h : Held env x rest since w) (hr : Removed o w w') :
    Held env x rest since w' := by
  rcases hr with ⟨rfl, -⟩ | ⟨rfl, -⟩
  · exact h
  · exact h.dropJournal

theorem Held.deactivate (h : Held env x rest since w) :
    Held env x rest since (w.setRx CfdpReceiver.deactivate) :=
  h.setRx (fun ha => by cases ha) h.marks (fun ha => by cases ha) h.acked

/-- A record the journal holds is that of the transfer. -/
theorem Kept.decode {disk : Disk} {log : List Event} (h : Kept env x rest since disk log)
    {s : JournalState} (hs : JournalState.decode disk.stateBin = some s) :
    x.Matches env s ∧ x.MarksStored (disk.files (x.path env)) s :=
  (h.journal.decode hs).1

theorem MarksStored.markEof {c : Option Bytes} {s : JournalState} (h : x.MarksStored c s) :
    x.MarksStored c s.markEof := h

theorem MarksStored.markDone {c : Option Bytes} {s : JournalState} (h : x.MarksStored c s)
    {ci : UInt32} (hlt : ci.toNat < s.chunkDone.length) (hci : x.ChunkStored c ci.toNat) :
    x.MarksStored c (s.markDone ci) := by
  intro cj hd
  rw [JournalState.isDone_markDone _ _ _ hlt, Bool.or_eq_true, decide_eq_true_eq] at hd
  rcases hd with rfl | hd
  · exact hci
  · exact h cj hd

/-! ## Completion -/

/-- The destination file begins with the source file once every chunk is marked done. -/
theorem MarksStored.file_append {c : Option Bytes} {s : JournalState} (h : x.MarksStored c s)
    (hrec : x.Matches env s) (hm : s.computeMissingChunks = []) :
    c = some (x.file ++ x.surplus c) := by
  have hcs : 0 < x.chunkSize := by rw [← hrec.chunkSize]; exact hrec.sane.chunkSize
  have htot : 0 < x.totalChunks := by rw [← hrec.totalChunks]; exact hrec.sane.totalChunks.1
  refine eq_of_all_stored hcs htot fun ci hci => ?_
  have hb := hrec.sane.totalChunks.2
  have hn : (UInt32.ofNat ci).toNat = ci := by
    rw [UInt32.toNat_ofNat', Nat.mod_eq_of_lt]; have := hrec.totalChunks; omega
  have hd := (JournalState.computeMissingChunks_eq_nil _).mp hm (UInt32.ofNat ci)
    (by rw [UInt32.lt_iff_toNat_lt, hn, hrec.totalChunks]; exact hci)
  have := h _ hd
  rwa [hn] at this

/-- It is the source file if there is nothing more. -/
theorem MarksStored.file {c : Option Bytes} {s : JournalState} (h : x.MarksStored c s) (hf : x.Fits c)
    (hrec : x.Matches env s) (hm : s.computeMissingChunks = []) : c = some x.file := by
  have hc := h.file_append hrec hm
  rwa [fits_iff.mp hf, List.append_nil] at hc

/-- A file that verifies is the source file. -/
theorem Held.verified (h : Held env x rest since w) (hd : x.Detects env rest) (ho : o.Smooth)
    (ha : w.rx.transferActive = true) (hm : w.rx.state.computeMissingChunks = [])
    (hv : verifyFileChecksum env o w = true) : w.disk.files (x.path env) = some x.file := by
  have hrec := h.record ha
  have hfile := h.marks.file_append hrec hm
  rw [h.rest] at hfile
  rcases hd with rfl | hd
  · rwa [List.append_nil] at hfile
  · rw [verifyFileChecksum, crc32OfPath, ho .destRead, if_neg Bool.false_ne_true, hrec.path, hfile,
      hrec.checksum] at hv
    exact absurd (beq_iff_eq.mp hv) hd

theorem Held.checkCompletion (h : Held env x rest since w) (hd : x.Detects env rest) (ho : o.Smooth)
    (ha : w.rx.transferActive = true) :
    wp (checkCompletion env o) (Held env x rest since) (fun _ => Held env x rest since)
      (fun _ _ => False) w := by
  refine wp_checkCompletion (fun _ => h) (fun pdu hp => ?_) (fun _ _ => ?_) fun hc hv => ?_
  · have hn := h.send _ fun hf => absurd hf.1 (CfdpReceiver.completion_not_ack hp)
    exact ⟨hn, hn⟩
  · exact ⟨fun _ => h.deactivate.dropJournal, fun w' hr => h.deactivate.removed hr⟩
  · have hfile := h.verified hd ho ha (CfdpReceiver.completion_verify hc).2.2 hv
    have hack : Held env x rest since w.finalAck :=
      (h.setRx (f := fun rx => { rx with lastAckedId := rx.state.transactionId }) h.record h.marks
        h.slots fun _ => hfile).send _ fun _ => hfile
    exact ⟨hack, fun _ => hack.deactivate.dropJournal, fun w' hr => hack.deactivate.removed hr⟩

/-! ## Flushing a chunk -/

theorem Matches.offset {s : JournalState} (h : x.Matches env s) {ci : UInt32}
    (hci : ci.toNat < s.totalChunks.toNat) :
    (s.chunkFileOffset ci).toNat = ci.toNat * x.chunkSize ∧ ci.toNat * x.chunkSize < 2 ^ 63 := by
  have hb := h.sane.totalChunks.2
  have hcs := s.chunkSize.toNat_lt
  have hlt : ci.toNat * x.chunkSize < 2 ^ 63 := by
    rw [← h.chunkSize]
    calc ci.toNat * s.chunkSize.toNat ≤ 2 ^ 20 * s.chunkSize.toNat := Nat.mul_le_mul_right _ (by omega)
      _ < 2 ^ 63 := by omega
  refine ⟨?_, hlt⟩
  rw [JournalState.chunkFileOffset, UInt64.toNat_mul, UInt32.toNat_toUInt64, UInt32.toNat_toUInt64,
    h.chunkSize, Nat.mod_eq_of_lt (by omega)]

theorem Held.flushChunk (h : Held env x rest since w) (hd : x.Detects env rest) (ho : o.Smooth)
    (ha : w.rx.transferActive = true) {ci : UInt32} (hci : ci.toNat < w.rx.state.totalChunks.toNat)
    (hs : x.SlotsOk ci.toNat w.rx.packetList) (hc : w.rx.packetList.isComplete = true) :
    wp (flushChunk env o ci) (Held env x rest since) (fun _ => Held env x rest since)
    (fun _ _ => False) w := by
  have hrec := h.record ha
  have hcs : 0 < x.chunkSize := by rw [← hrec.chunkSize]; exact hrec.sane.chunkSize
  have hps : 0 < x.packetSize := by rw [← hrec.packetSize]; exact hrec.sane.packetSize.1
  have hci' : ci.toNat < x.totalChunks := by rw [← hrec.totalChunks]; exact hci
  have hlt := chunk_lt hcs hci'
  have hne : 0 < x.file.length := by omega
  obtain ⟨hoff, hoff63⟩ := hrec.offset hci
  have hdata := hs.assemble hps hc
  have hmax := CfdpReceiver.ne_uint32Max hci hrec.sane.totalChunks.2
  refine wp_flushChunk (fun c hst => ?_) (fun hbad => ?_) fun base hb => ?_
  · rw [hrec.path, hoff, hdata] at hst
    rw [hrec.path]
    exact h.setFile (extends_stage ho hrec.fileSize hne hst) (surplus_stage ho hrec.fileSize hne hst)
  · have hfs : w.rx.state.fileSize ≠ 0 := by
      intro h0
      have := hrec.fileSize
      rw [h0] at this
      have : (0 : UInt64).toNat = 0 := rfl
      omega
    rcases hbad ho with ⟨-, h0⟩ | h63
    · exact absurd h0 hfs
    · omega
  rw [hrec.path] at hb
  have hext := (extends_base ho hrec.fileSize hne hb).trans
    (extends_pwrite base (ci.toNat * x.chunkSize) (x.chunkLen ci.toNat))
  have hstored : x.ChunkStored (some (pwrite base (ci.toNat * x.chunkSize)
      (slice x.file (ci.toNat * x.chunkSize) (x.chunkLen ci.toNat)))) ci.toNat := chunkStored_pwrite hlt.le base
  have hfile : Held env x rest since (w.setFile (x.path env) (some (pwrite base (ci.toNat * x.chunkSize)
      (slice x.file (ci.toNat * x.chunkSize) (x.chunkLen ci.toNat))))) := 
    h.setFile hext (by rw [surplus_pwrite, surplus_base ho hrec.fileSize hne hb])
  -- the chunk is written and marked in memory
  have h1 : Held env x rest since (w.wroteChunk ci base) := by
    unfold World.wroteChunk
    rw [hrec.path, hoff, hdata]
    refine hfile.setRx (fun _ => hrec.markDone ci) ?_ h.slots hfile.acked
    exact hfile.marks.markDone (by rw [World.setFile_rx, hrec.sane.flags]; exact hci)
      (by rw [World.setFile_files]; exact hstored)
  have hst1 : x.ChunkStored ((w.wroteChunk ci base).disk.files (x.path env)) ci.toNat := by
    unfold World.wroteChunk
    rw [hrec.path, hoff, hdata, World.setRx_disk, World.setFile_files]
    exact hstored
  -- and then in the journal
  have hcommit (s s' : JournalState)
      (hd : JournalState.decode (w.wroteChunk ci base).disk.stateBin = some s)
      (hm : markIn ci s = some s') : Held env x rest since ((w.wroteChunk ci base).commit (.chunkDone ci) s') := by
    obtain ⟨hms, hss⟩ := h1.decode hd
    unfold markIn at hm
    split at hm
    · cases hm
    · cases hm
      exact h1.commit (hms.markDone ci) (hss.markDone (by omega) hst1) _
  refine ⟨h1.setTmp, hcommit, fun w' hu => ?_⟩
  have h2 : Held env x rest since w' := by
    rcases hu with ⟨t, rfl, -⟩ | ⟨s, s', hd, hm, rfl⟩
    · exact h1.setTmp t
    · exact hcommit s s' hd hm
  have hrx : w'.rx = (w.wroteChunk ci base).rx := hu.alike.1
  have h3 := h2.send (AckPdu.raw ⟨w'.rx.state.transactionId, ci⟩)
    fun hf => absurd hf (not_isFinalAck_ack hmax)
  have h4 := h3.setRx (f := CfdpReceiver.clearList) h3.record h3.marks (fun _ hne => absurd rfl hne)
    h3.acked
  refine ⟨h3, fun _ => h4.checkCompletion hd ho ?_, fun _ => h4⟩
  show w'.rx.transferActive = true
  rw [hrx]; exact ha

/-! ## Handlers -/

/-- The journal is created for a new record. -/
theorem Held.created (h : Held env x rest since w) (hm : x.Matches env w.rx.state) :
    (∀ t, Held env x rest since (w.setTmp t)) ∧
      Held env x rest since (w.commit (.create w.rx.state) w.rx.state) ∧
        ∀ w', Created o w w.rx.state w' → Held env x rest since (w'.setRx CfdpReceiver.activate) := by
  have hcommit := h.commit hm h.marks (.create w.rx.state)
  refine ⟨h.setTmp, hcommit, fun w' hc => ?_⟩
  have h1 : Held env x rest since w' := by
    rcases hc with ⟨t, rfl, -⟩ | rfl
    · exact h.setTmp t
    · exact hcommit
  have hrx : w'.rx = w.rx := hc.alike.1
  refine h1.setRx (fun _ => ?_) h1.marks (fun _ hne => absurd rfl hne) h1.acked
  show x.Matches env w'.rx.state
  rw [hrx]
  exact hm

theorem Held.handleMetadata (h : Held env x rest since w) {m : MetadataPdu}
    (hs : w.rx.accepts m = true → ∃ name, x.Packable name ∧ m = x.metadata env.crc32 name)
    (hr : w.rx.repeatsAck m = true → m.transactionId = x.tid) :
    wp (handleMetadata env o m) (Held env x rest since) (fun _ => Held env x rest since)
      (fun _ _ => False) w := by
  refine wp_handleMetadata (fun _ _ => h) (fun hagain => ?_) fun hacc => ?_
  · have hack : w.rx.lastAckedId = x.tid := by
      rw [← hr hagain]
      simp only [CfdpReceiver.repeatsAck, Bool.and_eq_true, beq_iff_eq] at hagain
      exact hagain.2
    have := h.send (AckPdu.raw ⟨w.rx.state.transactionId, uint32Max⟩) fun _ => h.acked hack
    exact ⟨this, this⟩
  obtain ⟨name, hp, rfl⟩ := hs hacc
  have hm := matches_start (o := o) hp (CfdpReceiver.sane_of_accepts hacc) w.rx.state
  have hs (c : Option Bytes) : x.MarksStored c (w.rx.state.start env o (x.metadata env.crc32 name)) :=
    marksStored_start c _ _
  -- a Metadata of the same transaction is accepted only when none is active
  have hidle : w.rx.transferActive = true → w.rx.state.transactionId = x.tid → False := by
    intro ha ht
    simp [CfdpReceiver.accepts, ha, ht, Transfer.metadata] at hacc
  refine ⟨fun _ => h.dropJournal, ?_⟩
  rintro w₁ hr w₂ rfl
  have h1 := h.removed hr
  have hrx : w₁.rx = w.rx := hr.alike.1
  have h2 : Held env x rest since (w₁.setRx fun rx =>
      { rx with state := rx.state.start env o (x.metadata env.crc32 name) }) := by
    refine h1.setRx (fun _ => by rw [hrx]; exact hm) (by rw [hrx]; exact hs _) (fun ha => ?_) h1.acked
    have ha' : w.rx.transferActive = true := by rw [← hrx]; exact ha
    exact (hidle ha' (h.record ha').tid).elim
  refine h2.created ?_
  rw [World.setRx_rx, hrx]
  exact hm

/-- If `d` is stored as valid, it holds the packet of the source file that its header names. -/
def Genuine (x : Transfer) (d : DataPdu) : Prop :=
  Crc.crc8 d.data = d.crc8 → d.packetIndex.toNat < d.totalPackets.toNat →
    d.data = x.packetData d.chunkIndex.toNat d.packetIndex.toNat

theorem InFile.genuine {c p : Nat} (hin : x.InFile c p) : x.Genuine (x.dataPdu c p) := by
  intro _ _
  rw [hin.toNat_chunkIndex, hin.toNat_packetIndex]
  rfl

theorem Held.take (h : Held env x rest since w) {d : DataPdu} (hg : x.Genuine d)
    (htot : d.totalPackets.toNat = x.numPackets d.chunkIndex.toNat) (ha : w.rx.Accepted d) :
    x.SlotsOk d.chunkIndex.toNat (CfdpReceiver.take d w.rx).packetList := by
  have hslots : x.SlotsOk d.chunkIndex.toNat (w.rx.listFor d) := by
    unfold CfdpReceiver.listFor
    split
    · next hc =>
      have hne := CfdpReceiver.ne_uint32Max ha.chunk (h.record ha.active).sane.totalChunks.2
      rw [hc] at hne
      rw [hc]
      exact h.slots ha.active hne
    · exact slotsOk_init htot
  rw [CfdpReceiver.take_packetList]
  refine hslots.insert_of fun hv hlt => ?_
  rw [hslots.total, ← htot] at hlt
  exact hg (by simpa using hv) hlt

theorem Held.handleData (h : Held env x rest since w) (hd : x.Detects env rest)
    (ho : o.Smooth) {d : DataPdu}
    (hg : w.rx.acceptsData d = true → w.rx.state.isDone d.chunkIndex = false →
      x.Genuine d ∧ d.totalPackets.toNat = x.numPackets d.chunkIndex.toNat) :
    wp (handleData env o d) (Held env x rest since) (fun _ => Held env x rest since)
      (fun _ _ => False) w := by
  have hsee : Held env x rest since (w.setRx (CfdpReceiver.see d.chunkIndex)) :=
    h.setRx (by simpa using h.record) (by simpa using h.marks) (by simpa using h.slots)
      (by simpa using h.acked)
  refine wp_handleData (fun _ => h) (fun hacc _ => ?_) fun hacc hopen => ?_
  · have ha := CfdpReceiver.acceptsData_iff.mp hacc
    have hmax := CfdpReceiver.ne_uint32Max ha.chunk (h.record ha.active).sane.totalChunks.2
    rintro w₁ rfl
    have h2 := hsee.send (AckPdu.raw ⟨w.rx.state.transactionId, d.chunkIndex⟩)
      fun hf => absurd hf (not_isFinalAck_ack hmax)
    exact ⟨fun _ => ⟨h2, h2⟩, fun _ => hsee⟩
  have ha := CfdpReceiver.acceptsData_iff.mp hacc
  obtain ⟨hgenuine, htot⟩ := hg hacc hopen
  refine ⟨fun pdu hp => hsee.send _ fun hf => absurd hf.1 (CfdpReceiver.leaveNak_not_ack hp), ?_⟩
  rintro w₁ rfl
  have hsend : Held env x rest since (w.sendOption (w.rx.leaveNak d.chunkIndex)) :=
    CfdpReceiver.sendOption_leaveNak h fun _ hp => h.send _ fun hf => absurd hf.1 hp
  have hslots := h.take hgenuine htot ha
  have h1 : Held env x rest since ((w.sendOption (w.rx.leaveNak d.chunkIndex)).setRx
      (CfdpReceiver.take d)) := by
    refine hsend.setRx (by simpa using h.record) (by simpa using h.marks) (fun _ _ => ?_)
      (by simpa using h.acked)
    rw [CfdpReceiver.take_currentChunkIndex, World.sendOption_rx]
    exact hslots
  refine ⟨fun hc => ?_, fun _ => h1⟩
  refine h1.flushChunk hd ho ?_ ?_ ?_ hc
  · simpa using ha.active
  · simpa using ha.chunk
  · simpa using hslots

theorem Held.handleEof (h : Held env x rest since w) (hd : x.Detects env rest) (ho : o.Smooth)
    (eof : EofPdu) :
    wp (handleEof env o eof) (Held env x rest since) (fun _ => Held env x rest since)
    (fun _ _ => False) w := by
  refine wp_handleEof (fun _ => h)
    (fun hacc _ => h.checkCompletion hd ho (CfdpReceiver.active_of_acceptsEof hacc)) fun hacc _ => ?_
  have hcommit (s : JournalState) (hd : JournalState.decode w.disk.stateBin = some s) :
      Held env x rest since (w.commit .eofReceived s.markEof) := by
    obtain ⟨hm, hs⟩ := h.decode hd
    exact h.commit hm.markEof hs.markEof _
  refine ⟨h.setTmp, hcommit, fun w' hu => ?_⟩
  have h1 : Held env x rest since w' := by
    rcases hu with ⟨t, rfl, -⟩ | ⟨s, s', hd, hs, rfl⟩
    · exact h.setTmp t
    · cases hs; exact hcommit s hd
  have h2 := h1.setRx (f := fun rx => { rx with state := rx.state.markEof })
    (fun ha => (h1.record ha).markEof) h1.marks h1.slots h1.acked
  refine h2.checkCompletion hd ho ?_
  show w'.rx.transferActive = true
  rw [hu.alike.1]; exact CfdpReceiver.active_of_acceptsEof hacc

/-- Without a transfer a Data PDU is dropped, whatever the dispatcher reads. -/
theorem wp_data_idle {C : World → Prop} {Q : Unit → World → Prop} {E : RuntimeError → World → Prop}
    (ha : w.rx.transferActive = false) (payload : Bytes) (hq : Q () w) :
    wp (onPduReceived env o (PduType.data.code :: payload)) C Q E w := by
  have hno (d : DataPdu) : ¬ w.rx.acceptsData d = true := by
    intro hacc
    have := (CfdpReceiver.acceptsData_iff.mp hacc).active
    rw [ha] at this
    cases this
  rw [onPduReceived]
  rcases decodePdu_data_code payload with hn | ⟨d, hd⟩
  · rw [hn]
    exact (wp_pure ()).mpr hq
  · rw [hd]
    exact wp_handleData (fun _ => hq) (fun hacc => absurd hacc (hno d)) fun hacc => absurd hacc (hno d)

/-- **Every PDU of the transfer keeps the invariant**, at every moment. -/
theorem Held.onPduReceived (h : Held env x rest since w) (hd : x.Detects env rest) (ho : o.Smooth)
    {raw : Bytes} (hraw : x.Emits env.crc32 raw) :
    wp (onPduReceived env o raw) (Held env x rest since) (fun _ => Held env x rest since)
    (fun _ _ => False) w := by
  cases hraw with
  | metadata hm =>
    obtain ⟨name, hp, hd⟩ := decodePdu_metadataPdu hm
    rw [Cfdp.onPduReceived, hd]
    exact h.handleMetadata (fun _ => ⟨name, hp, rfl⟩) fun _ => rfl
  | data c p hpk =>
    obtain ⟨hin, rfl⟩ := packet_eq hpk
    by_cases ha : w.rx.transferActive = true
    · have hps : x.packetSize ≤ defaultPacketSize := by
        have hrec := h.record ha
        rw [← hrec.packetSize]; exact hrec.sane.packetSize.2
      rw [Cfdp.onPduReceived, hin.decodePdu hps]
      exact h.handleData hd ho fun _ _ => ⟨hin.genuine, by
        rw [hin.toNat_totalPackets, hin.toNat_chunkIndex]⟩
    · exact wp_data_idle (by simpa using ha) _ h
  | eof =>
    rw [Cfdp.onPduReceived, decodePdu_eofPdu]
    exact h.handleEof hd ho _
  | query =>
    rw [Cfdp.onPduReceived, decodePdu_queryPdu]
    have := h.send (ResumeInfoPdu.raw ⟨x.tid, firstMissingChunk w.rx x.tid⟩)
      fun hf => absurd hf.1 (not_isAck_info _)
    exact wp_handleResumeQuery.mpr ⟨this, this⟩

theorem Kept.onBoot {disk : Disk} {log : List Event} (h : Kept env x rest since disk log)
    (hdet : x.Detects env rest) (ho : o.Smooth) (htid : x.tid ≠ 0) (garbage : JournalState) :
    wp (onBoot env o) (Held env x rest since) (fun _ => Held env x rest since) (fun _ _ => False)
      ⟨.construct garbage, disk, log⟩ := by
  have hacked : (CfdpReceiver.construct garbage).lastAckedId = x.tid →
      disk.files (x.path env) = some x.file := fun ht => absurd ht.symm htid
  refine wp_onBoot (fun _ => ?_) (fun hne hl => ?_) fun hne hl => ?_
  · refine ⟨h, fun ha => (by cases ha), fun ci hd => ?_, fun ha => (by cases ha),
      hacked⟩
    simp [CfdpReceiver.construct, JournalState.isDone] at hd
  · obtain ⟨s, -, -, -, hs⟩ :=
      h.journal.loads (w := ⟨.construct garbage, disk, log⟩) hne (ho .journalOpen)
    rw [hs] at hl; cases hl
  · obtain ⟨s, ⟨hm, hmarks⟩, -, -, hs⟩ :=
      h.journal.loads (w := ⟨.construct garbage, disk, log⟩) hne (ho .journalOpen)
    rw [hs]
    rintro w₁ rfl
    have h1 : Held env x rest since ((World.setRx ⟨.construct garbage, disk, log⟩
        (fun rx => { rx with state := s })).setRx CfdpReceiver.activate) :=
      ⟨h, fun _ => hm, hmarks, fun _ hne => absurd rfl hne, hacked⟩
    exact ⟨fun _ => h1.checkCompletion hdet ho rfl, fun _ => h1⟩

/-! ## A destination that fits -/

theorem Stored.decode {disk : Disk} {log : List Event} (h : Stored env x since disk log)
    {s : JournalState} (hs : JournalState.decode disk.stateBin = some s) :
    x.Matches env s ∧ x.MarksStored (disk.files (x.path env)) s :=
  (stored_iff.mp h).decode hs

/-- Every PDU of the transfer keeps the invariant. -/
theorem Inv.onPduReceived (h : Inv env x since w) (ho : o.Smooth) {raw : Bytes}
    (hraw : x.Emits env.crc32 raw) :
    wp (onPduReceived env o raw) (Inv env x since) (fun _ => Inv env x since) (fun _ _ => False) w :=
  wp_mono ((inv_iff.mp h).onPduReceived (.inl rfl) ho hraw) (fun _ hx => inv_iff.mpr hx)
    (fun _ _ hx => inv_iff.mpr hx) fun _ _ hx => hx

theorem Stored.onBoot {disk : Disk} {log : List Event} (h : Stored env x since disk log)
    (ho : o.Smooth) (htid : x.tid ≠ 0) (garbage : JournalState) :
    wp (onBoot env o) (Inv env x since) (fun _ => Inv env x since) (fun _ _ => False)
      ⟨.construct garbage, disk, log⟩ :=
  wp_mono ((stored_iff.mp h).onBoot (.inl rfl) ho htid garbage) (fun _ hx => inv_iff.mpr hx)
    (fun _ _ hx => inv_iff.mpr hx) fun _ _ hx => hx

/-! ## Runs -/

/-- The surroundings of a transfer: its PDUs in any order and number, no failing call. -/
def Surroundings (env : Env) (x : Transfer) (_ : Node) (a : Action) : Prop :=
  a.Within (x.Emits env.crc32) Oracle.Smooth

/-- Chunks marked done, in the record `s` or in the journal, are in the destination file. -/
def DoneStored (env : Env) (x : Transfer) (disk : Disk) (s : JournalState) : Prop :=
  ∀ ci, (s.isDone ci = true ∨
      ∃ s', JournalState.decode disk.stateBin = some s' ∧ s'.isDone ci = true) →
    x.ChunkStored (disk.files (x.path env)) ci.toNat

/-- If a final ACK has been sent, the destination file is the source file. -/
def AckedStored (env : Env) (x : Transfer) (disk : Disk) (log : List Event) : Prop :=
  ∀ t, .sent (AckPdu.raw ⟨t, uint32Max⟩) ∈ log → disk.files (x.path env) = some x.file

theorem Stored.doneStored {disk : Disk} {log : List Event} (h : Stored env x since disk log)
    {s : JournalState} (hs : x.MarksStored (disk.files (x.path env)) s) : x.DoneStored env disk s := by
  rintro ci (hd | ⟨s', hs', hd⟩)
  · exact hs ci hd
  · exact (h.decode hs').2 ci hd

theorem Stored.ackedStored {disk : Disk} {log : List Event} (h : Stored env x 0 disk log) :
    x.AckedStored env disk log := fun t hmem => h.final _ (isFinalAck_raw t) hmem

/-- The invariant of nodes. -/
def NodeInv (env : Env) (x : Transfer) (since : Nat) : Node → Prop
  | .up w => Inv env x since w
  | .down disk log => Stored env x since disk log

theorem NodeInv.step {n n' : Node} {a : Action} {ms : List Moment} (htid : x.tid ≠ 0)
    (h : NodeInv env x since n) (ha : x.Surroundings env n a)
    (hs : Node.step env n a = some (ms, n')) :
    NodeInv env x since n' ∧ ∀ w, .passed w ∈ ms → Inv env x since w := by
  refine Node.inv_step (fun w raw o cut hw ha => ?_) (fun w hw => hw.toStored)
    (fun disk log garbage o cut hd ha => ?_) h ha hs
  · exact wp_mono (hw.onPduReceived ha.2 ha.1) (fun _ hx => ⟨hx, hx.toStored⟩)
      (fun _ _ hx => ⟨hx, hx⟩) (fun _ _ hx => hx.elim)
  · exact wp_mono (Stored.onBoot hd ha htid garbage) (fun _ hx => ⟨hx, hx.toStored⟩)
      (fun _ _ hx => ⟨hx, hx⟩) (fun _ _ hx => hx.elim)

theorem stored_fresh {n : Node} (hn : n.Fresh) (hd : x.Fits (n.disk.files (x.path env))) :
    NodeInv env x 0 n := by
  cases n with
  | up w => exact hn.elim
  | down disk log =>
    obtain ⟨h1, rfl⟩ := hn
    exact ⟨hd, fun c hc => (by rw [h1] at hc; cases hc), fun pdu _ hmem => (by cases hmem)⟩

theorem Run.nodeInv {n n' : Node} {hist : List Moment} (htid : x.tid ≠ 0) (hn : n.Fresh)
    (hd : x.Fits (n.disk.files (x.path env))) (h : Node.Run env (x.Surroundings env) n hist n') :
    NodeInv env x 0 n' ∧ ∀ w, .passed w ∈ hist → Inv env x 0 w := by
  have := h.inv_moments (I := NodeInv env x 0)
    (J := fun m => ∀ w, m = .passed w → Inv env x 0 w) (stored_fresh hn hd) ?_
  · exact ⟨this.1, fun w hw => this.2 _ hw w rfl⟩
  · intro n a ms n' hi ha hs
    obtain ⟨h1, h2⟩ := hi.step htid ha hs
    exact ⟨h1, fun m hm w hw => h2 w (hw ▸ hm)⟩

/-- **End-to-end safety of one transfer.** Whatever is lost, duplicated or reordered,
and wherever the receiver crashes: chunks marked done are in the destination file,
and after a final ACK the file is complete. -/
theorem run_safe {n n' : Node} {hist : List Moment} (htid : x.tid ≠ 0) (hn : n.Fresh)
    (hd : x.Fits (n.disk.files (x.path env))) (h : Node.Run env (x.Surroundings env) n hist n') :
    (∀ w, .passed w ∈ hist → x.DoneStored env w.disk w.rx.state ∧ x.AckedStored env w.disk w.log) ∧
      x.DoneStored env n'.disk .blank ∧ x.AckedStored env n'.disk n'.log := by
  obtain ⟨hn', hw⟩ := Run.nodeInv htid hn hd h
  refine ⟨fun w hm => ?_, ?_⟩
  · have hi := hw w hm
    exact ⟨hi.toStored.doneStored hi.marks, hi.toStored.ackedStored⟩
  · have hs : Stored env x 0 n'.disk n'.log := by
      cases n' with
      | up w => exact hn'.toStored
      | down disk log => exact hn'
    refine ⟨hs.doneStored fun ci hd => ?_, hs.ackedStored⟩
    simp [JournalState.isDone, JournalState.blank] at hd

/-- A file of one byte is delivered. -/
theorem run_safe_small : ∃ hist n',
    Node.Run sampleEnv ((small [0x61]).Surroundings sampleEnv) unusedNode hist n' ∧
      n'.disk.files ((small [0x61]).path sampleEnv) = some [0x61] := by
  have hrun : ((sampleRun [powerOn, deliver ((small [0x61]).metadataRaw sampleEnv.crc32),
      deliver ((small [0x61]).packetRaw 0 0), deliver ((small [0x61]).eofPdu sampleEnv.crc32)]).map
        fun r => decide (.sent (AckPdu.raw ⟨1, uint32Max⟩) ∈ r.2.log)) = some true := by
    decide +kernel
  obtain ⟨r, hr, hack⟩ := Option.map_eq_some_iff.mp hrun
  have hok : Node.Run sampleEnv ((small [0x61]).Surroundings sampleEnv) unusedNode r.1 r.2 := by
    refine Machine.exec_run hr fun a ha s _ _ => ?_
    simp only [List.mem_cons, List.not_mem_nil, or_false] at ha
    rcases ha with rfl | rfl | rfl | rfl
    · exact smooth_noFaults
    · exact ⟨emits_metadataRaw (by decide +kernel), smooth_noFaults⟩
    · exact ⟨emits_packetRaw (by decide +kernel), smooth_noFaults⟩
    · exact ⟨.eof, smooth_noFaults⟩
  obtain ⟨-, -, hacked⟩ := run_safe (by decide) unusedNode_fresh (fun g hg => by cases hg) hok
  exact ⟨r.1, r.2, hok, hacked 1 (by simpa using hack)⟩

end Transfer

end Cfdp
