import Cfdp.Rules

/-!
# The receiver without its files

`CfdpReceiver.reply` is what a PDU does to the fields of the receiver and which
PDUs it makes the receiver transmit. The file system matters in one place: whether
the received file passes the final checksum (`verified`). `wp_reply` says that
the handlers compute `reply` whatever file-system calls fail, as long as the
process survives; protocol claims about answers are proved about `reply`.
-/

namespace Cfdp

open Crash Prog

/-! ## Replies -/

def Event.pdu? : Event → Option Bytes
  | .sent pdu => some pdu
  | .journal _ => none

/-- The PDUs transmitted so far. -/
def World.sent (w : World) : List Bytes := w.log.filterMap Event.pdu?

theorem World.mem_sent {w : World} {pdu : Bytes} : pdu ∈ w.sent ↔ .sent pdu ∈ w.log := by
  rw [World.sent, List.mem_filterMap]
  constructor
  · rintro ⟨e, he, hpdu⟩
    cases e with
    | sent raw => cases hpdu; exact he
    | journal u => cases hpdu
  · exact fun h => ⟨.sent pdu, h, rfl⟩

/-- The acknowledgement of a chunk, or the final one. -/
def CfdpReceiver.ack (rx : CfdpReceiver) (ci : UInt32) : Bytes :=
  AckPdu.raw ⟨rx.state.transactionId, ci⟩

abbrev Reply := CfdpReceiver × List Bytes

namespace CfdpReceiver

def complete (verified : Bool) (rx : CfdpReceiver) : Reply :=
  match rx.completion with
  | .silent => (rx, [])
  | .nak pdu => (rx, [pdu])
  | .verify =>
    if verified then
      ({ rx with lastAckedId := rx.state.transactionId, transferActive := false }, [rx.ack uint32Max])
    else (rx.deactivate, [])

/-- The fields after a chunk is written and acknowledged. -/
def flushed (ci : UInt32) (rx : CfdpReceiver) : CfdpReceiver :=
  clearList { rx with state := rx.state.markDone ci }

def replyFlush (verified : Bool) (ci : UInt32) (rx : CfdpReceiver) : Reply :=
  if rx.state.eofReceived then
    (((rx.flushed ci).complete verified).1, rx.ack ci :: ((rx.flushed ci).complete verified).2)
  else (rx.flushed ci, [rx.ack ci])

def replyMetadata (env : Env) (o : Oracle) (metadata : MetadataPdu) (rx : CfdpReceiver) : Reply :=
  if rx.repeatsAck metadata then (rx, [rx.ack uint32Max])
  else if rx.accepts metadata then
    (activate { rx with state := rx.state.start env o metadata }, [])
  else (rx, [])

def replyData (verified : Bool) (dpdu : DataPdu) (rx : CfdpReceiver) : Reply :=
  if rx.acceptsData dpdu then
    if rx.state.isDone dpdu.chunkIndex then
      (rx.see dpdu.chunkIndex, if dpdu.packetIndex = 0 then [rx.ack dpdu.chunkIndex] else [])
    else if (rx.take dpdu).packetList.isComplete then
      (((rx.take dpdu).replyFlush verified dpdu.chunkIndex).1,
        (rx.leaveNak dpdu.chunkIndex).toList ++
          ((rx.take dpdu).replyFlush verified dpdu.chunkIndex).2)
    else (rx.take dpdu, (rx.leaveNak dpdu.chunkIndex).toList)
  else (rx, [])

def replyEof (verified : Bool) (eof : EofPdu) (rx : CfdpReceiver) : Reply :=
  if rx.acceptsEof eof then complete verified { rx with state := rx.state.markEof } else (rx, [])

def replyResumeQuery (query : ResumeQueryPdu) (rx : CfdpReceiver) : Reply :=
  (rx, [ResumeInfoPdu.raw ⟨query.transactionId, firstMissingChunk rx query.transactionId⟩])

def replyPdu (env : Env) (o : Oracle) (verified : Bool) (rx : CfdpReceiver) : Pdu → Reply
  | .metadata metadata => rx.replyMetadata env o metadata
  | .data dpdu => rx.replyData verified dpdu
  | .eof eof => rx.replyEof verified eof
  | .resumeQuery query => rx.replyResumeQuery query

/-- The fields and the transmissions after a raw PDU. -/
def reply (env : Env) (o : Oracle) (verified : Bool) (raw : Bytes) (rx : CfdpReceiver) : Reply :=
  match decodePdu raw with
  | some pdu => rx.replyPdu env o verified pdu
  | none => (rx, [])

/-- What `on_boot` does with the outcome of loading the journal, `none` if there is none. -/
def replyBoot (verified : Bool) (loaded : Option (Bool × JournalState)) (rx : CfdpReceiver) : Reply :=
  match loaded with
  | none => (rx, [])
  | some (false, state) => ({ rx with state }, [])
  | some (true, state) =>
    if state.computeMissingChunks = [] ∧ state.eofReceived = true then
      (activate { rx with state }).complete verified
    else (activate { rx with state }, [])

end CfdpReceiver

/-- What there is to load at boot. -/
def World.loaded (o : Oracle) (w : World) : Option (Bool × JournalState) :=
  if w.disk.stateBin = none then none else some (w.loads o)

/-! ## The handlers compute the replies -/

namespace World

variable (w : World)

@[simp] theorem sent_setRx (f) : (w.setRx f).sent = w.sent := rfl
@[simp] theorem sent_setTmp (t) : (w.setTmp t).sent = w.sent := rfl
@[simp] theorem sent_setFile (p c) : (w.setFile p c).sent = w.sent := rfl
@[simp] theorem sent_send (pdu) : (w.send pdu).sent = w.sent ++ [pdu] := by
  simp [sent, Event.pdu?]
@[simp] theorem sent_commit (u s) : (w.commit u s).sent = w.sent := by
  simp [sent, Event.pdu?]
@[simp] theorem sent_dropJournal : w.dropJournal.sent = w.sent := by
  simp [sent, Event.pdu?]
@[simp] theorem sent_sendOption (pdu) : (w.sendOption pdu).sent = w.sent ++ pdu.toList := by
  cases pdu <;> simp [sendOption]

/-- What the rest of the system sees of an update: fields, transmissions, received files. -/
def Alike (w w' : World) : Prop := w'.rx = w.rx ∧ w'.sent = w.sent ∧ w'.disk.files = w.disk.files

end World

section

variable {w w' : World} {o : Oracle} {env : Env}

theorem Updated.alike {u : JournalUpdate} {f : JournalState → Option JournalState}
    (h : Updated o w u f w') : w.Alike w' := by
  rcases h with ⟨t, rfl, -⟩ | ⟨s, s', -, -, rfl⟩ <;> simp [World.Alike]

theorem Created.alike {s : JournalState} (h : Created o w s w') : w.Alike w' := by
  rcases h with ⟨t, rfl, -⟩ | rfl <;> simp [World.Alike]

theorem Removed.alike (h : Removed o w w') : w.Alike w' := by
  rcases h with ⟨rfl, -⟩ | ⟨rfl, -⟩ <;> simp [World.Alike]

/-- The verdict depends on the files, the path and the checksum. -/
theorem verifyFileChecksum_congr (hf : w'.disk.files = w.disk.files)
    (hp : w'.rx.state.recvFilePath = w.rx.state.recvFilePath)
    (hc : w'.rx.state.checksumExpected = w.rx.state.checksumExpected) :
    verifyFileChecksum env o w' = verifyFileChecksum env o w := by
  simp only [verifyFileChecksum, hf, hp, hc]

/-- The fields and the transmissions of `w'` are those of a reply given in `w`. -/
def World.Replied (w : World) (r : Reply) (w' : World) : Prop :=
  w'.rx = r.1 ∧ w'.sent = w.sent ++ r.2

/-- A handler that survives gives the reply `r`, where `r` knows the verdict on the file. -/
abbrev Replies (env : Env) (o : Oracle) (p : M Unit) (w : World) (r : Bool → Reply) : Prop :=
  wp p (fun _ => True) (fun _ w' => w.Replied (r (verifyFileChecksum env o w')) w')
    (fun _ _ => True) w

theorem replies_checkCompletion :
    Replies env o (checkCompletion env o) w fun verified => w.rx.complete verified := by
  refine wp_checkCompletion (fun h => ?_) (fun pdu h => ⟨trivial, ?_⟩)
    (fun h hv => ⟨fun _ => trivial, ?_⟩)
    (fun h hv => ⟨trivial, fun _ => trivial, ?_⟩)
  · simp [World.Replied, CfdpReceiver.complete, h]
  · simp [World.Replied, CfdpReceiver.complete, h]
  · intro w' hr
    obtain ⟨h1, h2, h3⟩ := hr.alike
    have hv' : verifyFileChecksum env o w' = false := by
      rw [verifyFileChecksum_congr (w := w) h3 (by rw [h1]; rfl) (by rw [h1]; rfl), hv]
    simp [World.Replied, CfdpReceiver.complete, h, hv', h1, h2]
  · intro w' hr
    obtain ⟨h1, h2, h3⟩ := hr.alike
    have hv' : verifyFileChecksum env o w' = true := by
      rw [verifyFileChecksum_congr (w := w) h3 (by rw [h1]; rfl) (by rw [h1]; rfl), hv]
    simp [World.Replied, CfdpReceiver.complete, h, hv', h1, h2, World.finalAck,
      CfdpReceiver.deactivate, CfdpReceiver.ack]

/-- A completion check that ends a handler: `pre` was transmitted before it. -/
theorem Replies.after {p : M Unit} {w₁ : World} {r : Bool → Reply} (pre : List Bytes)
    (h : Replies env o p w₁ r) (hs : w₁.sent = w.sent ++ pre) :
    wp p (fun _ => True)
      (fun _ w' => w.Replied ((r (verifyFileChecksum env o w')).1,
        pre ++ (r (verifyFileChecksum env o w')).2) w') (fun _ _ => True) w₁ := by
  refine wp_mono h (fun _ h => h) (fun _ w' hw' => ?_) (fun _ _ h => h)
  obtain ⟨h1, h2⟩ := hw'
  exact ⟨h1, by rw [h2, hs, List.append_assoc]⟩

theorem replies_flushChunk (ci : UInt32) :
    Replies env o (flushChunk env o ci) w fun verified => w.rx.replyFlush verified ci := by
  refine wp_flushChunk (fun _ _ => trivial) (fun _ _ _ _ => trivial) fun base _ =>
    ⟨fun _ => trivial, fun _ _ _ _ => trivial, fun w' hu => ⟨trivial, fun he => ?_, fun he => ?_⟩⟩
  · obtain ⟨h1, h2, -⟩ := hu.alike
    have hrx : ((w'.send (AckPdu.raw ⟨w'.rx.state.transactionId, ci⟩)).setRx
        CfdpReceiver.clearList).rx = w.rx.flushed ci := by
      simp [h1, World.wroteChunk, CfdpReceiver.flushed]
    refine wp_mono (Replies.after (w := w) [w.rx.ack ci] replies_checkCompletion ?_)
      (fun _ h => h) (fun _ w'' hr => ?_) (fun _ _ h => h)
    · simp [h1, h2, World.wroteChunk, CfdpReceiver.ack, JournalState.markDone]
    · rw [hrx] at hr
      simpa only [CfdpReceiver.replyFlush, he, if_true, List.singleton_append] using hr
  · obtain ⟨h1, h2, -⟩ := hu.alike
    simp [World.Replied, CfdpReceiver.replyFlush, he, h1, h2, World.wroteChunk,
      CfdpReceiver.flushed, CfdpReceiver.ack, JournalState.markDone]

theorem CfdpReceiver.accepts_repeatsAck {rx : CfdpReceiver} {m : MetadataPdu}
    (h : rx.accepts m = true) :
    rx.repeatsAck m = false := by
  simp only [accepts, Bool.and_eq_true, Bool.not_eq_true'] at h
  exact h.2.1

theorem replies_handleMetadata (metadata : MetadataPdu) :
    Replies env o (handleMetadata env o metadata) w fun _ => w.rx.replyMetadata env o metadata := by
  refine wp_handleMetadata (fun hr ha => ?_) (fun hr => ⟨trivial, ?_⟩)
    (fun ha => ⟨fun _ => trivial, ?_⟩)
  · simp [World.Replied, CfdpReceiver.replyMetadata, hr, ha]
  · simp [World.Replied, CfdpReceiver.replyMetadata, hr, CfdpReceiver.ack]
  · rintro w₁ hw₁ w₂ rfl
    refine ⟨fun _ => trivial, trivial, fun w₃ hw₃ => ?_⟩
    have hr := CfdpReceiver.accepts_repeatsAck ha
    obtain ⟨h1, h2, -⟩ := hw₁.alike
    obtain ⟨h3, h4, -⟩ := hw₃.alike
    simp [World.Replied, CfdpReceiver.replyMetadata, hr, ha, h1, h2, h3, h4]

theorem replies_handleData (dpdu : DataPdu) :
    Replies env o (handleData env o dpdu) w fun verified => w.rx.replyData verified dpdu := by
  refine wp_handleData (fun ha => ?_) (fun ha hd => ?_) (fun ha hd => ⟨fun _ _ => trivial, ?_⟩)
  · simp [World.Replied, CfdpReceiver.replyData, ha]
  · rintro w₁ rfl
    refine ⟨fun h0 => ⟨trivial, ?_⟩, fun h0 => ?_⟩ <;>
      simp [World.Replied, CfdpReceiver.replyData, ha, hd, h0, CfdpReceiver.ack]
  · rintro w₁ rfl
    refine ⟨fun hc => ?_, fun hc => ?_⟩
    · refine wp_mono (Replies.after (w := w) (w.rx.leaveNak dpdu.chunkIndex).toList
        (replies_flushChunk dpdu.chunkIndex) (by simp)) (fun _ h => h) (fun _ w' hr => ?_)
        (fun _ _ h => h)
      rw [World.setRx_rx, World.sendOption_rx] at hr hc
      simpa only [CfdpReceiver.replyData, ha, hd, hc, if_true, if_false, Bool.false_eq_true] using hr
    · rw [World.setRx_rx, World.sendOption_rx] at hc
      simp [World.Replied, CfdpReceiver.replyData, ha, hd, hc]

theorem replies_handleEof (eof : EofPdu) :
    Replies env o (handleEof env o eof) w fun verified => w.rx.replyEof verified eof := by
  refine wp_handleEof (fun ha => ?_) (fun ha he => ?_)
    (fun ha he => ⟨fun _ => trivial, fun _ _ => trivial, fun w' hu => ?_⟩)
  · simp [World.Replied, CfdpReceiver.replyEof, ha]
  · have hrx : ({ w.rx with state := w.rx.state.markEof } : CfdpReceiver) = w.rx := by
      simp only [JournalState.markEof, ← he]
    simpa only [CfdpReceiver.replyEof, ha, if_true, hrx] using replies_checkCompletion
  · obtain ⟨h1, h2, -⟩ := hu.alike
    refine wp_mono (Replies.after (w := w) [] replies_checkCompletion ?_)
      (fun _ h => h) (fun _ w'' hr => ?_) (fun _ _ h => h)
    · simp [h2]
    · simpa [CfdpReceiver.replyEof, ha, h1] using hr

/-- **The handlers compute the replies.** -/
theorem wp_reply (raw : Bytes) : Replies env o (onPduReceived env o raw) w fun verified =>
    w.rx.reply env o verified raw := by
  unfold onPduReceived CfdpReceiver.reply
  cases decodePdu raw with
  | none => simp [Replies, World.Replied]
  | some pdu =>
    cases pdu with
    | metadata metadata => exact replies_handleMetadata metadata
    | data dpdu => exact replies_handleData dpdu
    | eof eof => exact replies_handleEof eof
    | resumeQuery query =>
      show Replies env o (handleResumeQuery query) w _
      rw [Replies, wp_handleResumeQuery]
      simp [World.Replied, CfdpReceiver.replyPdu, CfdpReceiver.replyResumeQuery]

theorem replies_onBoot :
    Replies env o (onBoot env o) w fun verified => w.rx.replyBoot verified (w.loaded o) := by
  refine wp_onBoot (fun hn => ?_) (fun hn hl => ?_) fun hn hl => ?_
  · simp [World.Replied, CfdpReceiver.replyBoot, World.loaded, hn]
  · rintro w₁ rfl
    refine ⟨trivial, fun w' hr => ?_⟩
    obtain ⟨h1, h2, -⟩ := hr.alike
    have hload : w.loaded o = some (false, (w.loads o).2) := by
      unfold World.loaded
      rw [if_neg hn, ← hl]
    simp [World.Replied, CfdpReceiver.replyBoot, hload, h1, h2]
  · rintro w₁ rfl
    have hload : w.loaded o = some (true, (w.loads o).2) := by
      unfold World.loaded
      rw [if_neg hn, ← hl]
    refine ⟨fun hc => ?_, fun hc => ?_⟩
    · refine wp_mono (Replies.after (w := w) [] replies_checkCompletion (by simp))
        (fun _ h => h) (fun _ w' hr => ?_) (fun _ _ h => h)
      simpa [hload, CfdpReceiver.replyBoot, hc] using hr
    · simp [World.Replied, hload, CfdpReceiver.replyBoot, hc]

end

end Cfdp
