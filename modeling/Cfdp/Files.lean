import Cfdp.Answers
import Cfdp.Geometry

/-!
# What a PDU does to the received files

Only a Data PDU that completes its chunk (`Completes`) touches a received file, the one
of its record: it is opened or created, and the chunk is written into it. `wp_files`
lists what the files are while that happens, when it is done, and when the handler
throws.
-/

namespace Cfdp

open Crash Prog Machine FileBytes

/-- A Data PDU that completes its chunk. -/
structure CfdpReceiver.Completes (rx : CfdpReceiver) (d : DataPdu) : Prop where
  accepts : rx.acceptsData d = true
  open_ : rx.state.isDone d.chunkIndex = false
  complete : (rx.take d).packetList.isComplete = true

namespace World

/-- The destination file of the record. -/
def dest (w : World) : Bytes := w.rx.state.recvFilePath

/-- The bytes written when `d` completes its chunk. -/
def chunkData (w : World) (d : DataPdu) : Bytes := (w.rx.take d).packetList.assemble

/-- Where they are written. -/
def chunkOffset (w : World) (d : DataPdu) : Nat := (w.rx.state.chunkFileOffset d.chunkIndex).toNat

/-- The files with the destination replaced. -/
def withDest (w : World) (c : Option Bytes) : Bytes → Option Bytes := (w.setFile w.dest c).disk.files

/-- The files while the chunk that `d` completes is flushed. -/
def Flushing (o : Oracle) (w : World) (d : DataPdu) (files : Bytes → Option Bytes) : Prop :=
  ∃ c, Stage o w.disk.files w.dest w.rx.state.fileSize (w.chunkOffset d) (w.chunkData d) c ∧
    files = w.withDest c

/-- The files after it. -/
def Flushed (o : Oracle) (w : World) (d : DataPdu) (files : Bytes → Option Bytes) : Prop :=
  ∃ base, DestBase o w.disk.files w.dest w.rx.state.fileSize base ∧
    files = w.withDest (some (pwrite base (w.chunkOffset d) (w.chunkData d)))

/-- What stops a flush without faults. -/
def CannotFlush (w : World) (d : DataPdu) : Prop :=
  (w.disk.files w.dest = none ∧ w.rx.state.fileSize = 0) ∨ 2 ^ 63 ≤ w.chunkOffset d

/-- `raw` is a Data PDU that completes its chunk. -/
def Flushes (w : World) (raw : Bytes) (d : DataPdu) : Prop :=
  decodePdu raw = some (.data d) ∧ w.rx.Completes d

end World

section

variable {env : Env} {o : Oracle} {w x : World} {raw : Bytes} {d : DataPdu} {ci : UInt32}
  {files : Bytes → Option Bytes}

theorem World.withDest_dest (w : World) (c : Option Bytes) : w.withDest c w.dest = c :=
  World.setFile_files _ _ _

theorem World.withDest_of_ne {p : Bytes} (h : p ≠ w.dest) (c : Option Bytes) :
    w.withDest c p = w.disk.files p := World.setFile_files_of_ne _ h _

/-- A program that leaves the received files alone and ends normally. -/
abbrev KeepsFiles (files : Bytes → Option Bytes) (p : M Unit) (w : World) : Prop :=
  wp p (fun x => x.disk.files = files) (fun _ x => x.disk.files = files) (fun _ _ => False) w

theorem keepsFiles_checkCompletion (h : w.disk.files = files) :
    KeepsFiles files (checkCompletion env o) w :=
  wp_checkCompletion (fun _ => h) (fun _ _ => ⟨h, h⟩)
    (fun _ _ => ⟨fun _ => h, fun _ hr => (hr.alike.2.2).trans h⟩)
    (fun _ _ => ⟨h, fun _ => h, fun _ hr => (hr.alike.2.2).trans h⟩)

/-- Only a Data PDU changes a received file. -/
theorem keepsFiles_pdu {pdu : Pdu} (hd : decodePdu raw = some pdu) (hn : ∀ dpdu, pdu ≠ .data dpdu) :
    KeepsFiles w.disk.files (onPduReceived env o raw) w := by
  rw [onPduReceived, hd]
  cases pdu with
  | metadata m =>
    refine wp_handleMetadata (fun _ _ => rfl) (fun _ => ⟨rfl, rfl⟩) fun _ => ⟨fun _ => rfl, ?_⟩
    rintro w₁ hr w₂ rfl
    have h₁ : w₁.disk.files = w.disk.files := hr.alike.2.2
    exact ⟨fun _ => h₁, h₁, fun w₃ hc => (hc.alike.2.2).trans h₁⟩
  | data dpdu => exact absurd rfl (hn dpdu)
  | eof eof =>
    exact wp_handleEof (fun _ => rfl) (fun _ _ => keepsFiles_checkCompletion rfl) fun _ _ =>
      ⟨fun _ => rfl, fun _ _ => rfl, fun w' hu => keepsFiles_checkCompletion hu.alike.2.2⟩
  | resumeQuery query => exact wp_handleResumeQuery.mpr ⟨rfl, rfl⟩

theorem files_flushChunk : wp (flushChunk env o ci)
    (fun x => ∃ c, Stage o w.disk.files w.dest w.rx.state.fileSize (w.rx.state.chunkFileOffset ci).toNat
      w.rx.packetList.assemble c ∧ x.disk.files = w.withDest c)
    (fun _ x => ∃ base, DestBase o w.disk.files w.dest w.rx.state.fileSize base ∧ x.disk.files =
      w.withDest (some (pwrite base (w.rx.state.chunkFileOffset ci).toNat w.rx.packetList.assemble)))
    (fun _ x => (∃ c, Stage o w.disk.files w.dest w.rx.state.fileSize
        (w.rx.state.chunkFileOffset ci).toNat w.rx.packetList.assemble c ∧
          x.disk.files = w.withDest c) ∧
      (o.Smooth → (w.disk.files w.dest = none ∧ w.rx.state.fileSize = 0) ∨
        2 ^ 63 ≤ (w.rx.state.chunkFileOffset ci).toNat)) w := by
  refine wp_flushChunk (fun c hc => ⟨c, hc, rfl⟩) (fun herr _ c hc => ⟨⟨c, hc, rfl⟩, herr⟩)
    fun base hb => ?_
  -- once the chunk is written the file stays as it is
  have hwhole : Stage o w.disk.files w.dest w.rx.state.fileSize (w.rx.state.chunkFileOffset ci).toNat
      w.rx.packetList.assemble (some (pwrite base (w.rx.state.chunkFileOffset ci).toNat
        w.rx.packetList.assemble)) :=
    .inr ⟨base, w.rx.packetList.assemble.length, hb, by rw [List.take_length]⟩
  refine ⟨fun _ => ⟨_, hwhole, rfl⟩, fun _ _ _ _ => ⟨_, hwhole, rfl⟩, fun w' hu => ?_⟩
  have hfiles : w'.disk.files = w.withDest (some (pwrite base (w.rx.state.chunkFileOffset ci).toNat
      w.rx.packetList.assemble)) := hu.alike.2.2
  refine ⟨⟨_, hwhole, hfiles⟩, fun _ => ?_, fun _ => ⟨base, hb, hfiles⟩⟩
  exact wp_mono (keepsFiles_checkCompletion hfiles) (fun x hx => ⟨_, hwhole, hx⟩)
    (fun _ x hx => ⟨base, hb, hx⟩) fun _ _ h => h.elim

/-- **What a PDU does to the received files.** -/
theorem wp_files (raw : Bytes) : wp (onPduReceived env o raw)
    (fun x => x.disk.files = w.disk.files ∨ ∃ d, w.Flushes raw d ∧ w.Flushing o d x.disk.files)
    (fun _ x => (x.disk.files = w.disk.files ∧ ∀ d, ¬ w.Flushes raw d) ∨
      ∃ d, w.Flushes raw d ∧ w.Flushed o d x.disk.files)
    (fun _ x => ∃ d, w.Flushes raw d ∧ w.Flushing o d x.disk.files ∧ (o.Smooth → w.CannotFlush d)) w := by
  cases hd : decodePdu raw with
  | none =>
    rw [onPduReceived, hd]
    exact (wp_pure ()).mpr (.inl ⟨rfl, fun d hf => by cases hd.symm.trans hf.1⟩)
  | some pdu =>
    by_cases hdata : ∃ d, pdu = .data d
    · obtain ⟨d, rfl⟩ := hdata
      have hother (h : ¬ w.rx.Completes d) : ∀ d', ¬ w.Flushes raw d' := by
        rintro d' ⟨hd', hc⟩
        rw [hd] at hd'
        cases hd'
        exact h hc
      rw [onPduReceived, hd]
      refine wp_handleData (fun hacc => .inl ⟨rfl, hother fun hc => ?_⟩) ?_ fun hacc hopen => ?_
      · rw [hc.accepts] at hacc
        cases hacc
      · rintro hacc hdone w₁ rfl
        have hno : ∀ d', ¬ w.Flushes raw d' := hother fun hc => by
          rw [hc.open_] at hdone
          cases hdone
        exact ⟨fun _ => ⟨.inl rfl, .inl ⟨rfl, hno⟩⟩, fun _ => .inl ⟨rfl, hno⟩⟩
      · refine ⟨fun pdu _ => .inl rfl, ?_⟩
        rintro w₁ rfl
        generalize hw₁ : (w.sendOption (w.rx.leaveNak d.chunkIndex)).setRx (CfdpReceiver.take d) = w₁
        have hrx : w₁.rx = w.rx.take d := by
          rw [← hw₁]
          simp
        have hdisk : w₁.disk = w.disk := by
          rw [← hw₁]
          simp
        have hstate : w₁.rx.state = w.rx.state := by rw [hrx, CfdpReceiver.take_state]
        have hdest : w₁.dest = w.dest := by rw [World.dest, hstate, World.dest]
        have hwith (c : Option Bytes) : w₁.withDest c = w.withDest c := by
          rw [World.withDest, World.withDest, World.setFile, World.setFile, hdest, hdisk]
        refine ⟨fun hc => ?_, fun hc => ?_⟩
        · have hf : w.Flushes raw d := ⟨hd, hacc, hopen, by rw [← hrx]; exact hc⟩
          have hspec := @files_flushChunk env o w₁ d.chunkIndex
          simp only [hstate, hdest, hdisk, hwith] at hspec
          rw [hrx] at hspec
          refine wp_mono hspec (fun x hx => .inr ⟨d, hf, hx⟩) (fun _ x hx => .inr ⟨d, hf, hx⟩) ?_
          exact fun _ x hx => ⟨d, hf, hx⟩
        · refine .inl ⟨by rw [hdisk], hother fun hc' => ?_⟩
          rw [hrx, hc'.complete] at hc
          cases hc
    · have hno : ∀ d, ¬ w.Flushes raw d := by
        rintro d ⟨hd', -⟩
        rw [hd] at hd'
        cases hd'
        exact hdata ⟨d, rfl⟩
      exact wp_mono (keepsFiles_pdu hd fun d he => hdata ⟨d, he⟩) (fun _ h => .inl h)
        (fun _ _ h => .inl ⟨h, hno⟩) fun _ _ h => h.elim

/-- Without faults a PDU is handled to its end, unless it completes a chunk of a file of size zero
that does not exist. -/
theorem receives_of_dest (hok : w.rx.Ok) (ho : o.Smooth)
    (hdest : ∀ d, w.Flushes raw d → w.disk.files w.dest = none → w.rx.state.fileSize ≠ 0) :
    ∃ w', w.Receives env o raw w' := by
  have htotal : wp (onPduReceived env o raw) (fun _ => True) (fun _ _ => True)
      (fun _ _ => False) w := by
    refine wp_mono (wp_files raw) (fun _ _ => trivial) (fun _ _ _ => trivial) fun _ _ h => ?_
    obtain ⟨d, hf, -, hcannot⟩ := h
    have ha := CfdpReceiver.acceptsData_iff.mp hf.2.accepts
    have hoff : w.chunkOffset d < 2 ^ 63 := (hok.sane ha.active).offset_lt ha.chunk
    rcases hcannot ho with ⟨hnone, hzero⟩ | hbig
    · exact hdest d hf hnone hzero
    · omega
  obtain ⟨w', hw', -⟩ := receives_of_wp htotal
  exact ⟨w', hw'⟩

end

end Cfdp
