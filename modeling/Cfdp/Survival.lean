import Cfdp.Memory

/-!
# When the receiver throws

An exception ends the process. `PacketList::init` throws if the packet list has no room,
and else only `flush_chunk` does; if the calls on regular files succeed it does so in two
situations, both admitted by `handle_metadata`: the path of the file is not that of a
regular file name, or the file has size zero, does not exist, and a later chunk completes
because its size wraps around. `run_survives` says that there is no other.
-/

namespace Cfdp

open Crash Prog Machine FileBytes

/-! ## Regular files -/

/-- The name of a regular file: what an entry of a directory can be called. -/
def regularName (name : Bytes) : Bool :=
  !name.isEmpty && !name.contains 0x2F && !name.contains 0 && name != [0x2E] && name != [0x2E, 0x2E] &&
    decide (name.length ≤ 255)

/-- The path is `recv_dir/<regular file name>`. -/
def Env.RegularPath (env : Env) (path : Bytes) : Prop :=
  ∃ name, regularName name = true ∧ path = cstr env.recvDir ++ 0x2F :: name

/-- The calls on the journal succeed, and so do those on the received file if it can be one. -/
def World.CallsSucceed (env : Env) (w : World) (o : Oracle) : Prop :=
  o.JournalSmooth ∧ (env.RegularPath w.dest → o.Smooth)

def Node.CallsSucceed (env : Env) : Node → Action → Prop
  | .up w, .recv _ o _ => w.CallsSucceed env o
  | .down _ _, .boot _ o _ => o.JournalSmooth
  | _, _ => True

/-! ## What may be accepted -/

/-- The file has size zero, does not exist, and has a second chunk that can complete. -/
def World.Trap (env : Env) (o : Oracle) (w : World) (m : MetadataPdu) : Prop :=
  m.fileSize = 0 ∧ 2 ≤ m.totalChunks.toNat ∧ m.chunkSize.toNat + m.packetSize.toNat - 1 < 2 ^ 32 ∧
    w.disk.files (destString env o m) = none

/-- There is room for the packets of every chunk. -/
def JournalState.HasRoom (room : Nat) (s : JournalState) : Prop :=
  ∀ ci : UInt32, ci.toNat < s.totalChunks.toNat → (s.expectedPkts ci).toNat ≤ room

/-- A Metadata that is accepted names a regular file, is no trap, and has no chunk of more than `room`
packets. -/
def Node.Writable (room : Nat) (env : Env) : Node → Action → Prop
  | .up w, .recv raw o _ => ∀ m, decodePdu raw = some (.metadata m) → w.rx.accepts m = true →
      env.RegularPath (destString env o m) ∧ ¬ w.Trap env o m ∧ (w.rx.state.start env o m).HasRoom room
  | _, _ => True

/-- The chunks of the record can be stored and flushed. -/
structure JournalState.Flushable (room : Nat) (env : Env) (files : Bytes → Option Bytes)
    (s : JournalState) : Prop where
  room : s.HasRoom room
  path : env.RegularPath s.recvFilePath
  size : s.fileSize = 0 → 2 ≤ s.totalChunks.toNat →
    s.chunkSize.toNat + s.packetSize.toNat - 1 < 2 ^ 32 →
    files s.recvFilePath ≠ none

def Node.Flushable (room : Nat) (env : Env) : Node → Prop
  | .up w => (w.rx.transferActive = true → w.rx.state.Flushable room env w.disk.files) ∧
      JournalAll (JournalState.Flushable room env w.disk.files) w.disk
  | .down disk _ => JournalAll (JournalState.Flushable room env disk.files) disk

section

variable {room : Nat} {env : Env} {o : Oracle} {w : World} {raw : Bytes} {d : DataPdu} {rx : CfdpReceiver}
  {files files' : Bytes → Option Bytes} {s : JournalState}

theorem marked_flushable (room : Nat) (env : Env) (files : Bytes → Option Bytes) :
    Marked (JournalState.Flushable room env files) :=
  ⟨fun _ _ h => ⟨h.room, h.path, h.size⟩, fun _ h => ⟨h.room, h.path, h.size⟩⟩

/-- No received file is ever removed. -/
def FilesGrow (files files' : Bytes → Option Bytes) : Prop := ∀ p, files p ≠ none → files' p ≠ none

theorem JournalState.Flushable.grow (h : s.Flushable room env files) (hg : FilesGrow files files') :
    s.Flushable room env files' := ⟨h.room, h.path, fun h1 h2 h3 => hg _ (h.size h1 h2 h3)⟩

theorem World.Flushing.grow (h : w.Flushing o d files) : FilesGrow w.disk.files files := by
  obtain ⟨c, hc, rfl⟩ := h
  intro p hp
  by_cases he : p = w.dest
  · subst he
    rw [World.withDest_dest]
    rcases hc with rfl | ⟨base, i, -, rfl⟩
    · exact hp
    · exact Option.some_ne_none _
  · rw [World.withDest_of_ne he]
    exact hp

theorem World.Flushed.flushing (h : w.Flushed o d files) : w.Flushing o d files := by
  obtain ⟨base, hb, rfl⟩ := h
  exact ⟨_, .inr ⟨base, (w.chunkData d).length, hb, rfl⟩, by rw [List.take_length]⟩

/-- **The received files only grow in number.** -/
theorem grow_onPduReceived (raw : Bytes) : wp (onPduReceived env o raw)
    (fun x => FilesGrow w.disk.files x.disk.files) (fun _ x => FilesGrow w.disk.files x.disk.files)
    (fun _ x => FilesGrow w.disk.files x.disk.files) w := by
  refine wp_mono (wp_files raw) (fun x hx => ?_) (fun _ x hx => ?_) fun _ x hx => ?_
  · rcases hx with hx | ⟨d, -, hx⟩
    · rw [hx]
      exact fun _ h => h
    · exact hx.grow
  · rcases hx with ⟨hx, -⟩ | ⟨d, -, hx⟩
    · rw [hx]
      exact fun _ h => h
    · exact hx.flushing.grow
  · obtain ⟨d, -, hx, -⟩ := hx
    exact hx.grow

theorem keepsFiles_onBoot : KeepsFiles w.disk.files (onBoot env o) w := by
  refine wp_onBoot (fun _ => rfl) ?_ ?_
  · rintro - - w₁ rfl
    exact ⟨rfl, fun w' hr => hr.alike.2.2⟩
  · rintro - - w₁ rfl
    exact ⟨fun _ => keepsFiles_checkCompletion rfl, fun _ => rfl⟩

/-! ## Chunks of an empty file -/

/-- A chunk of a record of size zero completes only if it is not the first and its packet count
does not overflow. -/
theorem CfdpReceiver.Completes.wraps (h : rx.Completes d) (hok : rx.Ok) (hz : rx.state.fileSize = 0) :
    2 ≤ rx.state.totalChunks.toNat ∧
      rx.state.chunkSize.toNat + rx.state.packetSize.toNat - 1 < 2 ^ 32 := by
  have ha := acceptsData_iff.mp h.accepts
  have hs := hok.sane ha.active
  have hps := hs.packetSize.1
  have htotal : 0 < (rx.state.expectedPkts d.chunkIndex).toNat := by
    have hwf : (rx.take d).packetList.Wf := by
      rw [take_packetList]
      exact (hok.toSteady.listFor ha).1.insert _ _ _
    have hpos := (hwf.isComplete_iff.mp h.complete).1
    rwa [take_packetList, PacketList.insert_totalPackets, (hok.toSteady.listFor ha).2] at hpos
  rw [JournalState.toNat_expectedPkts _ _ hps, hz] at htotal
  have hdiv : rx.state.packetSize.toNat ≤ (min ((0 : UInt64) - rx.state.chunkFileOffset d.chunkIndex).toNat
      rx.state.chunkSize.toNat + rx.state.packetSize.toNat - 1) % 2 ^ 32 := by
    by_contra hlt
    rw [Nat.div_eq_of_lt (by omega)] at htotal
    omega
  have hci := ha.chunk
  have hcs := rx.state.chunkSize.toNat_lt
  have hps' := rx.state.packetSize.toNat_lt
  constructor
  · -- the size of chunk 0 is zero
    by_contra htot
    have h0 : d.chunkIndex = 0 := UInt32.toNat_inj.mp (by show _ = 0; omega)
    have hoff : rx.state.chunkFileOffset d.chunkIndex = 0 := by
      rw [h0, ← UInt64.toNat_inj, JournalState.toNat_chunkFileOffset, show (0 : UInt32).toNat = 0 from rfl,
        Nat.zero_mul]
      rfl
    rw [hoff, show ((0 : UInt64) - 0).toNat = 0 from rfl, Nat.zero_min] at hdiv
    omega
  · -- otherwise the rounding addition wraps to less than one packet
    by_contra hbig
    have hoff := rx.state.toNat_chunkFileOffset d.chunkIndex
    have hmul : d.chunkIndex.toNat * rx.state.chunkSize.toNat ≤ 2 ^ 20 * 2 ^ 32 :=
      Nat.mul_le_mul (by have := hs.totalChunks.2; omega) (by omega)
    have hrem : ((0 : UInt64) - rx.state.chunkFileOffset d.chunkIndex).toNat =
        (2 ^ 64 - (rx.state.chunkFileOffset d.chunkIndex).toNat + 0) % 2 ^ 64 := UInt64.toNat_sub _ _
    rcases Nat.eq_zero_or_pos (rx.state.chunkFileOffset d.chunkIndex).toNat with h0 | hpos
    · rw [hrem, h0] at hdiv
      omega
    · have hle : rx.state.chunkSize.toNat ≤
          ((0 : UInt64) - rx.state.chunkFileOffset d.chunkIndex).toNat := by
        rw [hrem]
        omega
      rw [Nat.min_eq_right hle] at hdiv
      omega

/-! ## Every run -/

/-- A record that has just been accepted. -/
theorem flushable_start {m : MetadataPdu} (s : JournalState)
    (hp : env.RegularPath (destString env o m)) (ht : ¬ w.Trap env o m)
    (hroom : (s.start env o m).HasRoom room) : (s.start env o m).Flushable room env w.disk.files where
  room := hroom
  path := by
    rw [JournalState.recvFilePath_start]
    exact hp
  size h1 h2 h3 hnone := by
    rw [JournalState.recvFilePath_start] at hnone
    exact ht ⟨h1, h2, h3, hnone⟩

theorem Node.Flushable.step {n n' : Node} {a : Action} {ms : List Moment} (hn : n.Flushable room env)
    (ha : n.Writable room env a) (hs : Node.step env n a = some (ms, n')) : n'.Flushable room env := by
  refine (Node.inv_step (I := Node.Flushable room env) (J := fun _ => True) ?_ (fun w h => h.2) ?_ hn ha hs).1
  · intro w raw o cut hw ha
    have hstart : ∀ m, decodePdu raw = some (.metadata m) → w.rx.accepts m = true →
        (w.rx.state.start env o m).Flushable room env w.disk.files := fun m hd hacc =>
      flushable_start _ (ha m hd hacc).1 (ha m hd hacc).2.1 (ha m hd hacc).2.2
    have hj := keepsJournal_onPduReceived env o raw (marked_flushable room env w.disk.files) hw.2 hstart
    refine wp_mono (wp_and (wp_and hj (wp_reply raw)) (grow_onPduReceived raw))
      (fun x h => ⟨trivial, ?_⟩)
      (fun _ x h => ⟨trivial, fun hact => ?_, ?_⟩) fun _ x h => ?_
    · exact h.1.1.mono fun s hs => hs.grow h.2
    · obtain ⟨⟨-, hrx, -⟩, hgrow⟩ := h
      rw [hrx] at hact ⊢
      exact (CfdpReceiver.reply_record (marked_flushable room env w.disk.files) hw.1 hstart hact).grow hgrow
    · exact h.1.1.mono fun s hs => hs.grow h.2
    · exact h.1.1.mono fun s hs => hs.grow h.2
  · intro disk log garbage o cut hd _
    generalize hw : (⟨.construct garbage, disk, log⟩ : World) = w
    have hdisk : w.disk = disk := by rw [← hw]
    have hd : JournalAll (JournalState.Flushable room env w.disk.files) w.disk := by rw [hdisk]; exact hd
    have hj := keepsJournal_onBoot env o hd
    refine wp_mono (wp_and (wp_and hj replies_onBoot) keepsFiles_onBoot) (fun x h => ⟨trivial, ?_⟩)
      (fun _ x h => ⟨trivial, fun hact => ?_, ?_⟩) fun _ x h => h.2.elim
    · unfold World.crashed
      rw [Node.Flushable, h.2]
      exact h.1.1
    · obtain ⟨⟨-, hrx, -⟩, hfiles⟩ := h
      rw [hrx] at hact ⊢
      rw [hfiles]
      exact CfdpReceiver.replyBoot_record hd (by rw [← hw]) hact
    · rw [h.2]
      exact h.1.1

theorem Node.Fresh.flushable {n : Node} (h : n.Fresh) : n.Flushable room env := by
  cases n with
  | up w => exact h.elim
  | down disk log =>
    intro c hc
    rw [h.1] at hc
    cases hc

/-- Where every chunk has room, so has every packet list. -/
theorem Node.Flushable.received_eq (h : (Node.up w).Flushable room env) :
    Limited.onPduReceived room env o raw w = onPduReceived env o raw w := by
  refine Limited.onPduReceived_eq fun d _ hall => ?_
  simp only [CfdpReceiver.allocates, Bool.and_eq_true] at hall
  have hacc := CfdpReceiver.acceptsData_iff.mp hall.1
  rw [hacc.packets]
  exact (h.1 hacc.active).room _ hacc.chunk

theorem Node.Flushable.step_eq {n : Node} (h : n.Flushable room env) (a : Action) :
    Limited.step room env n a = Node.step env n a := by
  cases n with
  | down disk log => rfl
  | up w =>
    cases a with
    | crash => rfl
    | boot garbage o cut => rfl
    | recv raw o cut => simp only [Limited.step, Node.step, h.received_eq]

/-- The memory never runs out. -/
theorem Node.Flushable.run {n₀ n : Node} {hist : List Moment} (hn : n₀.Fresh)
    (h : Machine.Run (Limited.step room env) (fun n a => n.CallsSucceed env a ∧ n.Writable room env a)
      n₀ hist n) : n.Ok ∧ n.Flushable room env := by
  refine h.inv (I := fun _ n => n.Ok ∧ n.Flushable room env) ⟨hn.ok, hn.flushable⟩ ?_
  intro _ n a ms n' ⟨hok, hfl⟩ ha hs
  rw [hfl.step_eq] at hs
  exact ⟨Node.ok_step hok hs, hfl.step ha.2 hs⟩

/-- **No remote input stops the receiver**, as long as every Metadata it accepts names a regular
file, is no trap, and has no chunk for which there is no room: whatever bytes arrive, and wherever
crashes strike, no handler throws. -/
theorem run_survives {n₀ n : Node} {hist : List Moment} (hn : n₀.Fresh)
    (h : Machine.Run (Limited.step room env) (fun n a => n.CallsSucceed env a ∧ n.Writable room env a)
      n₀ hist n) (a : Action) (ha : n.CallsSucceed env a) : ¬ Limited.Throws room env n a := by
  obtain ⟨hok, hfl⟩ := Node.Flushable.run hn h
  cases n with
  | down disk log =>
    cases a with
    | recv => exact id
    | crash => exact id
    | boot garbage o cut =>
      rintro ⟨e, he⟩
      exact (@total_onBoot env o ⟨.construct garbage, disk, log⟩).error he
  | up w =>
    cases a with
    | boot => exact id
    | crash => exact id
    | recv raw o cut =>
      rintro ⟨e, he⟩
      rw [hfl.received_eq] at he
      obtain ⟨d, ⟨-, hc⟩, -, hcannot⟩ := (@wp_files env o w raw).error he
      have hacc := CfdpReceiver.acceptsData_iff.mp hc.accepts
      have hs := hfl.1 hacc.active
      rcases hcannot (ha.2 hs.path) with ⟨hnone, hzero⟩ | hbig
      · obtain ⟨h1, h2⟩ := hc.wraps hok.1 hzero
        exact hs.size hzero h1 h2 hnone
      · have hoff : w.chunkOffset d < 2 ^ 63 := (hok.1.sane hacc.active).offset_lt hacc.chunk
        omega

/-- Deliveries without faults. -/
theorem callsSucceed_smooth (ho : o.Smooth) (n : Node) (cut : Option Nat) :
    n.CallsSucceed env (.recv raw o cut) := by
  cases n with
  | up w => exact ⟨ho.journal, fun _ => ho⟩
  | down => trivial

/-- The packet counts of a new record come from the Metadata alone. -/
theorem JournalState.expectedPkts_start (s t : JournalState) (m : MetadataPdu) (ci : UInt32) :
    (s.start env o m).expectedPkts ci = (t.start env o m).expectedPkts ci := rfl

/-- The file `r/a` is a regular one, and no chunk has more than two packets. -/
theorem writable_five {w : World} {cut : Option Nat} : Node.Writable 2 sampleEnv (.up w)
    (.recv (Transfer.five.metadataRaw sampleEnv.crc32) noFaults cut) := by
  intro m hm _
  rw [Transfer.metadataRaw_five, decodePdu_metadata] at hm
  cases hm
  refine ⟨⟨[0x61], by decide, by decide +kernel⟩, fun ht => absurd ht.1 (by decide), ?_⟩
  intro ci hci
  have hlt : ci.toNat < 2 := hci
  have hfits : ∀ i < 2, ((JournalState.start sampleEnv noFaults .blank
      (Transfer.five.metadata sampleEnv.crc32 [0x61])).expectedPkts (UInt32.ofNat i)).toNat ≤ 2 := by
    decide +kernel
  have h := hfits ci.toNat hlt
  rwa [UInt32.ofNat_toNat, JournalState.expectedPkts_start .blank w.rx.state] at h

/-- Half of the first chunk arrives and the receiver restarts. -/
def restartedFive : List Action :=
  [powerOn, deliver (Transfer.five.metadataRaw sampleEnv.crc32), deliver (Transfer.five.packetRaw 0 1),
    .crash, powerOn, deliver (Transfer.five.packetRaw 1 0)]

theorem allowed_restartedFive {a : Action} (ha : a ∈ restartedFive) (n : Node) :
    n.CallsSucceed sampleEnv a ∧ n.Writable 2 sampleEnv a := by
  have hpacket (ci pi : Nat) (h : (Transfer.five.packetRaw ci pi).head? = some PduType.data.code) :
      n.Writable 2 sampleEnv (deliver (Transfer.five.packetRaw ci pi)) := by
    cases n with
    | down => trivial
    | up w =>
      intro m hm
      rw [decodePdu_type hm] at h
      cases h
  simp only [restartedFive, List.mem_cons, List.not_mem_nil, or_false] at ha
  rcases ha with rfl | rfl | rfl | rfl | rfl | rfl
  · cases n with
    | up w => exact ⟨trivial, trivial⟩
    | down => exact ⟨smooth_noFaults.journal, trivial⟩
  · refine ⟨callsSucceed_smooth smooth_noFaults n none, ?_⟩
    cases n with
    | up w => exact writable_five
    | down => trivial
  · exact ⟨callsSucceed_smooth smooth_noFaults n none, hpacket 0 1 (by decide +kernel)⟩
  · cases n <;> exact ⟨trivial, trivial⟩
  · cases n with
    | up w => exact ⟨trivial, trivial⟩
    | down => exact ⟨smooth_noFaults.journal, trivial⟩
  · exact ⟨callsSucceed_smooth smooth_noFaults n none, hpacket 1 0 (by decide +kernel)⟩

/-- With room for two packets, the last packet of the file stops nothing. -/
theorem run_survives_small : ∃ hist w, Machine.Run (Limited.step 2 sampleEnv)
    (fun n a => n.CallsSucceed sampleEnv a ∧ n.Writable 2 sampleEnv a) unusedNode hist (.up w) ∧
      w.rx.state.chunkDone = [false, true] ∧
        ¬ Limited.Throws 2 sampleEnv (.up w) (deliver (Transfer.five.packetRaw 0 0)) := by
  have hrun : (Machine.exec (Limited.step 2 sampleEnv) unusedNode restartedFive).any
      (fun r => r.2.world?.any fun w => decide (w.rx.state.chunkDone = [false, true])) = true := by
    decide +kernel
  simp only [Option.any_eq_true, Node.world?_eq_some, Prod.exists, decide_eq_true_eq] at hrun
  obtain ⟨hist, n, hr, w, rfl, hdone⟩ := hrun
  have hok : Machine.Run (Limited.step 2 sampleEnv)
      (fun n a => n.CallsSucceed sampleEnv a ∧ n.Writable 2 sampleEnv a) unusedNode hist (.up w) :=
    Machine.exec_run hr fun a ha n _ _ => allowed_restartedFive ha n
  exact ⟨hist, w, hok, hdone,
    run_survives unusedNode_fresh hok _ (callsSucceed_smooth smooth_noFaults (.up w) none)⟩

/-- After the Metadata of an empty file with two chunks, a packet of the second chunk stops the receiver. -/
theorem not_run_survives : ¬ ∀ (room : Nat) (env : Env) (n₀ n : Node) (hist : List Moment), n₀.Fresh →
    Machine.Run (Limited.step room env) (fun n a => n.CallsSucceed env a) n₀ hist n →
      ∀ a, n.CallsSucceed env a → ¬ Limited.Throws room env n a := by
  intro h
  let d : DataPdu := ⟨1, 1, 0, 1, 1, Crc.crc8 [0x62], [0x62]⟩
  have hrun : (Machine.exec (Limited.step 1 sampleEnv) unusedNode [powerOn,
      deliver (PduType.metadata.code :: { metadataOf 0 with totalChunks := 2 }.toBytes)]).any
        (fun r => r.2.world?.any fun w => !(Limited.onPduReceived 1 sampleEnv noFaults
          (PduType.data.code :: d.toBytes) w).result.isOk) = true := by decide +kernel
  simp only [Option.any_eq_true, Node.world?_eq_some, Prod.exists, Bool.not_eq_true'] at hrun
  obtain ⟨hist, n, hr, w, rfl, hw⟩ := hrun
  have hok : Machine.Run (Limited.step 1 sampleEnv) (fun n a => n.CallsSucceed sampleEnv a)
      unusedNode hist (.up w) := by
    refine Machine.exec_run hr fun a ha n _ _ => ?_
    rcases List.mem_cons.mp ha with rfl | ha
    · cases n with
      | up w => trivial
      | down => exact smooth_noFaults.journal
    · rw [List.mem_singleton.mp ha]
      exact callsSucceed_smooth smooth_noFaults n none
  refine h 1 sampleEnv unusedNode (.up w) hist unusedNode_fresh hok
    (deliver (PduType.data.code :: d.toBytes)) (callsSucceed_smooth smooth_noFaults _ none) ?_
  cases he : (Limited.onPduReceived 1 sampleEnv noFaults (PduType.data.code :: d.toBytes) w).result with
  | error e => exact ⟨e, he⟩
  | ok u =>
    rw [he] at hw
    cases hw

end

end Cfdp
