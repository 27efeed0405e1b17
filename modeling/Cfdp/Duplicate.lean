import Cfdp.Answers

/-!
# Duplicates

A PDU delivered twice in a row is a PDU delivered once. The first copy may complete a
chunk, end the transfer or start one, so the second takes another branch; whatever
happened, the receiver then *absorbs* the PDU (`Absorbs`): its handler transmits at
most, and changes neither the fields nor the disk.
-/

namespace Cfdp

open Crash Prog

namespace CfdpReceiver

variable {rx : CfdpReceiver} {env : Env} {o : Oracle} {v : Bool} {raw : Bytes}

/-- There is nothing left in `raw` for the receiver to take in. -/
def Absorbs (rx : CfdpReceiver) (raw : Bytes) : Prop :=
  match decodePdu raw with
  | some (.metadata m) => rx.accepts m = false
  | some (.data d) => rx.acceptsData d = true → rx.see d.chunkIndex = rx ∧
      (rx.state.isDone d.chunkIndex = true ∨ rx.take d = rx ∧ rx.packetList.isComplete = false)
  | some (.eof eof) => rx.acceptsEof eof = true → rx.state.eofReceived = true ∧ rx.completion ≠ .verify
  | _ => True

/-! ## What the first copy leaves -/

theorem see_see (ci : UInt32) (rx : CfdpReceiver) : (rx.see ci).see ci = rx.see ci := by
  have hle : ¬ ci > (rx.see ci).maxChunkSeen := by
    rw [gt_iff_lt, UInt32.lt_iff_toNat_lt, see_maxChunkSeen]
    omega
  rw [see, if_neg hle]

theorem see_take (d : DataPdu) (rx : CfdpReceiver) : (rx.take d).see d.chunkIndex = rx.take d := by
  have hle : ¬ d.chunkIndex > (rx.take d).maxChunkSeen := by
    rw [gt_iff_lt, UInt32.lt_iff_toNat_lt, take_maxChunkSeen]
    omega
  rw [see, if_neg hle]

/-- A packet stored twice is stored once. -/
theorem take_take (d : DataPdu) (rx : CfdpReceiver) : (rx.take d).take d = rx.take d := by
  have henter : (rx.take d).enter d.chunkIndex d.totalPackets = rx.take d := by
    unfold enter
    rw [take_currentChunkIndex]
    simp
  have hlist : ((rx.take d).packetList.insert d.packetIndex d.data (Crc.crc8 d.data == d.crc8)).2 =
      (rx.take d).packetList := by
    rw [take_packetList, PacketList.insert_insert]
  rw [take, see_take, henter, store, hlist]

/-- After a completion check the transfer is over, or the fields are as before and another
check would not end it either. -/
theorem complete_stays (rx : CfdpReceiver) (v : Bool) : (rx.complete v).1.transferActive = false ∨
    (rx.complete v).1 = rx ∧ rx.completion ≠ .verify := by
  unfold complete
  cases rx.completion with
  | silent => exact .inr ⟨rfl, fun h => by cases h⟩
  | nak pdu => exact .inr ⟨rfl, fun h => by cases h⟩
  | verify => cases v <;> exact .inl rfl

theorem not_acceptsData {d : DataPdu} (ha : rx.transferActive = false) :
    ¬ rx.acceptsData d = true := by
  intro h
  have := (acceptsData_iff.mp h).active
  rw [ha] at this
  cases this

/-- A transfer that has started is not started again. -/
theorem absorbs_metadata {m : MetadataPdu} (hd : decodePdu raw = some (.metadata m)) :
    (rx.replyMetadata env o m).1.Absorbs raw := by
  simp only [Absorbs, hd, replyMetadata]
  split
  · next hr =>
    by_contra hacc
    rw [accepts_repeatsAck (by simpa using hacc)] at hr
    cases hr
  · split
    · -- the transfer is active now
      have htid : (rx.state.start env o m).transactionId = m.transactionId := rfl
      simp [accepts, activate, htid]
    · next hacc => simpa using hacc

/-- A chunk that has been flushed is done. -/
theorem absorbs_flushed {d : DataPdu} (h : rx.Ok) (ha : rx.Accepted d) :
    ((rx.take d).flushed d.chunkIndex).see d.chunkIndex = (rx.take d).flushed d.chunkIndex ∧
      ((rx.take d).flushed d.chunkIndex).state.isDone d.chunkIndex = true := by
  have hlt : d.chunkIndex.toNat < rx.state.chunkDone.length := by
    rw [(h.sane ha.active).flags]
    exact ha.chunk
  constructor
  · have hle : ¬ d.chunkIndex > ((rx.take d).flushed d.chunkIndex).maxChunkSeen := by
      show ¬ d.chunkIndex > (rx.take d).maxChunkSeen
      rw [gt_iff_lt, UInt32.lt_iff_toNat_lt, take_maxChunkSeen]
      omega
    rw [see, if_neg hle]
  · show ((rx.take d).state.markDone d.chunkIndex).isDone d.chunkIndex = true
    rw [take_state, JournalState.isDone_markDone _ _ _ hlt, decide_eq_true rfl, Bool.true_or]

theorem absorbs_data {d : DataPdu} (h : rx.Ok) (hd : decodePdu raw = some (.data d)) :
    (rx.replyData v d).1.Absorbs raw := by
  simp only [Absorbs, hd, replyData]
  split
  · next hacc =>
    have ha := acceptsData_iff.mp hacc
    split
    · next hdone =>
      intro _
      exact ⟨see_see _ _, .inl (by rw [see_state]; exact hdone)⟩
    · split
      · -- the chunk is flushed, and the transfer over or not
        obtain ⟨hsee, hdone⟩ := absorbs_flushed h ha
        simp only [replyFlush]
        split
        · rcases ((rx.take d).flushed d.chunkIndex).complete_stays v with hidle | ⟨hstay, -⟩
          · exact fun hacc' => absurd hacc' (not_acceptsData hidle)
          · rw [hstay]
            exact fun _ => ⟨hsee, .inl hdone⟩
        · exact fun _ => ⟨hsee, .inl hdone⟩
      · next hc =>
        intro _
        exact ⟨see_take d rx, .inr ⟨take_take d rx, by simpa using hc⟩⟩
  · next hacc => exact fun hacc' => absurd hacc' hacc

theorem absorbs_eof {eof : EofPdu} (hd : decodePdu raw = some (.eof eof)) :
    (rx.replyEof v eof).1.Absorbs raw := by
  simp only [Absorbs, hd, replyEof]
  split
  · rcases complete_stays { rx with state := rx.state.markEof } v with hidle | ⟨hstay, hne⟩
    · intro hacc
      simp only [acceptsEof, hidle, Bool.false_and] at hacc
      cases hacc
    · rw [hstay]
      exact fun _ => ⟨rfl, hne⟩
  · next hacc => exact fun hacc' => absurd hacc' hacc

/-- **After its reply the receiver absorbs the PDU.** -/
theorem absorbs_reply (h : rx.Ok) (raw : Bytes) : (rx.reply env o v raw).1.Absorbs raw := by
  cases hd : decodePdu raw with
  | none =>
    unfold Absorbs
    rw [hd]
    trivial
  | some pdu =>
    rw [reply, hd]
    cases pdu with
    | metadata m => exact absorbs_metadata hd
    | data d => exact absorbs_data h hd
    | eof eof => exact absorbs_eof hd
    | resumeQuery query =>
      unfold Absorbs
      rw [hd]
      trivial

end CfdpReceiver

/-! ## What the second copy does -/

section

variable {env : Env} {o : Oracle} {w w₁ w₂ : World} {raw : Bytes}

/-- The same fields and the same disk. -/
def World.Same (w w' : World) : Prop := w'.rx = w.rx ∧ w'.disk = w.disk

theorem World.same_refl (w : World) : w.Same w := ⟨rfl, rfl⟩

theorem World.same_send (pdu : Bytes) : w.Same (w.send pdu) := ⟨rfl, rfl⟩

theorem World.setRx_of_eq {f : CfdpReceiver → CfdpReceiver} (h : f w.rx = w.rx) : w.setRx f = w := by
  rw [World.setRx, h]

theorem wp_checkCompletion_absorbed (h : w.rx.completion ≠ .verify) :
    wp (checkCompletion env o) w.Same (fun _ => w.Same) (fun _ _ => False) w :=
  wp_checkCompletion (fun _ => w.same_refl) (fun _ _ => ⟨World.same_send _, World.same_send _⟩)
    (fun hv => absurd hv h) (fun hv => absurd hv h)

/-- **A PDU that is absorbed changes nothing**, whatever calls fail and wherever a crash strikes. -/
theorem CfdpReceiver.Absorbs.wp_same (h : w.rx.Absorbs raw) :
    wp (onPduReceived env o raw) w.Same (fun _ => w.Same) (fun _ _ => False) w := by
  unfold CfdpReceiver.Absorbs at h
  rw [onPduReceived]
  cases hd : decodePdu raw with
  | none => exact (wp_pure _).mpr w.same_refl
  | some pdu =>
    rw [hd] at h
    cases pdu with
    | metadata m =>
      refine wp_handleMetadata (fun _ _ => w.same_refl)
        (fun _ => ⟨World.same_send _, World.same_send _⟩) fun hacc => ?_
      have hno : w.rx.accepts m = false := h
      rw [hacc] at hno
      cases hno
    | data d =>
      refine wp_handleData (fun _ => w.same_refl) (fun hacc _ => ?_) fun hacc hopen => ?_
      · rintro w₁ rfl
        rw [World.setRx_of_eq (h hacc).1]
        exact ⟨fun _ => ⟨World.same_send _, World.same_send _⟩, fun _ => w.same_refl⟩
      · obtain ⟨htake, hinc⟩ := (h hacc).2.resolve_left (by rw [hopen]; exact Bool.false_ne_true)
        -- the chunk is the one in progress, so no chunk is left
        have hcur : w.rx.currentChunkIndex = d.chunkIndex := by
          rw [← htake, CfdpReceiver.take_currentChunkIndex]
        have hleave : w.rx.leaveNak d.chunkIndex = none := by simp [CfdpReceiver.leaveNak, hcur]
        refine ⟨fun pdu hp => absurd (hleave.symm.trans hp) (Option.some_ne_none pdu).symm, ?_⟩
        rintro w₁ rfl
        rw [hleave, World.sendOption, World.setRx_of_eq htake]
        exact ⟨fun hc => absurd (hinc.symm.trans hc) Bool.false_ne_true, fun _ => w.same_refl⟩
    | eof eof =>
      refine wp_handleEof (fun _ => w.same_refl) (fun hacc _ => wp_checkCompletion_absorbed (h hacc).2)
        fun hacc he => ?_
      rw [(h hacc).1] at he
      cases he
    | resumeQuery query => exact wp_handleResumeQuery.mpr ⟨World.same_send _, World.same_send _⟩

/-- **Duplicate delivery is harmless**: in every reachable state, if the first copy of a PDU is
handled to its end, the second is too, and leaves the fields and the disk as the first left them.
No call has to succeed for that. -/
theorem duplicate_harmless {n₀ : Node} {hist : List Moment} {o' : Oracle} (hn : n₀.Fresh)
    (h : Node.Run env (fun _ _ => True) n₀ hist (.up w)) (h₁ : w.Receives env o raw w₁) :
    (∃ w₂, w₁.Receives env o' raw w₂) ∧
      ∀ w₂, w₁.Receives env o' raw w₂ → w₂.rx = w₁.rx ∧ w₂.disk = w₁.disk := by
  have hok := (Node.Run.ok hn h).1
  have hrx := h₁.replied.1
  have habs : w₁.rx.Absorbs raw := by
    rw [hrx]
    exact CfdpReceiver.absorbs_reply hok raw
  have hsame := @CfdpReceiver.Absorbs.wp_same env o' w₁ raw habs
  refine ⟨?_, fun w₂ h₂ => h₂.spec hsame⟩
  obtain ⟨w₂, h₂, -⟩ := receives_of_wp hsame
  exact ⟨w₂, h₂⟩

/-- The only packet of a file of one byte, which is also its last PDU. -/
theorem duplicate_harmless_small : ∃ w w₁ w₂ : World,
    w.Receives sampleEnv noFaults ((Transfer.small [0x61]).packetRaw 0 0) w₁ ∧
      w₁.Receives sampleEnv noFaults ((Transfer.small [0x61]).packetRaw 0 0) w₂ ∧
        w.rx.transferActive = true ∧ w₁.rx.transferActive = false ∧ w₂.rx = w₁.rx ∧
          w₂.disk = w₁.disk := by
  have hrun : (sampleRun [powerOn, deliver ((Transfer.small [0x61]).metadataRaw sampleEnv.crc32),
      deliver ((Transfer.small [0x61]).eofPdu sampleEnv.crc32)]).any
      (fun r => r.2.world?.any fun w => w.rx.transferActive &&
        (w.receive sampleEnv ((Transfer.small [0x61]).packetRaw 0 0, noFaults)).any fun w₁ =>
          !w₁.rx.transferActive) = true := by
    decide +kernel
  simp only [Option.any_eq_true, Node.world?_eq_some, Bool.and_eq_true, Bool.not_eq_true',
    Prod.exists] at hrun
  obtain ⟨hist, n, hr, w, rfl, ha, w₁, hw₁, hidle⟩ := hrun
  have hrun : Node.Run sampleEnv (fun _ _ => True) unusedNode hist (.up w) :=
    Machine.exec_run hr fun _ _ _ _ _ => trivial
  have h₁ := World.receive_eq_some.mp hw₁
  obtain ⟨⟨w₂, h₂⟩, hsame⟩ := @duplicate_harmless sampleEnv noFaults w w₁ _ unusedNode hist noFaults
    unusedNode_fresh hrun h₁
  exact ⟨w, w₁, w₂, h₁, h₂, ha, hidle, hsame w₂ h₂⟩

end

end Cfdp
