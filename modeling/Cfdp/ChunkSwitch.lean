import Cfdp.Naks

/-!
# Leaving a chunk in progress

A Data PDU of another chunk makes the receiver drop the packets it holds of the chunk in
progress. `handle_data` does so before `PacketList::insert` looks at the packet index:
a Data PDU that no slot takes (`Rejects`) is ignored only if an earlier test rejects it
or its chunk is the one in progress. And the NAK for the chunk that is left is computed
before its slots are freed: it asks for all packets of the chunk only if no slot was
valid, or if the completion check that may follow asks for the whole chunk.
-/

namespace Cfdp

open Crash Prog Machine

/-! ## Packets that no slot takes -/

/-- No slot takes the packet: a test fails, or the chunk is open and has no such packet. -/
def CfdpReceiver.Rejects (rx : CfdpReceiver) (d : DataPdu) : Prop :=
  rx.acceptsData d = true →
    rx.state.isDone d.chunkIndex = false ∧ rx.state.expectedPkts d.chunkIndex ≤ d.packetIndex

/-- The record, the chunk in progress with its slots, the disk and the log are the same. -/
structure World.Untouched (w w' : World) : Prop where
  state : w'.rx.state = w.rx.state
  currentChunkIndex : w'.rx.currentChunkIndex = w.rx.currentChunkIndex
  maxChunkSeen : w'.rx.maxChunkSeen = w.rx.maxChunkSeen
  packetList : w'.rx.packetList = w.rx.packetList
  disk : w'.disk = w.disk
  log : w'.log = w.log

/-- The program ends normally, makes no durable step and changes nothing. -/
abbrev Ignores (p : M Unit) (w : World) : Prop :=
  wp p (fun _ => False) (fun _ => w.Untouched) (fun _ _ => False) w

section

variable {env : Env} {o : Oracle} {w : World} {d : DataPdu}

theorem World.untouched_refl (w : World) : w.Untouched w := ⟨rfl, rfl, rfl, rfl, rfl, rfl⟩

theorem ignores_unaccepted (h : w.rx.acceptsData d = false) : Ignores (handleData env o d) w := by
  refine wp_handleData (fun _ => w.untouched_refl) (fun hacc => ?_) fun hacc => ?_
  · rw [h] at hacc
    cases hacc
  · rw [h] at hacc
    cases hacc

/-- The slots a rejected packet meets stay as they are. -/
theorem CfdpReceiver.take_rejected (h : w.rx.Steady) (ha : w.rx.Accepted d)
    (hout : w.rx.state.expectedPkts d.chunkIndex ≤ d.packetIndex) :
    (w.rx.take d).packetList = w.rx.listFor d := by
  have htot := (h.listFor ha).2
  rw [take_packetList, PacketList.insert_out]
  rw [htot]
  exact UInt32.le_iff_toNat_le.mp hout

/-- A packet beyond the chunk in progress is ignored. -/
theorem ignores_current (h : w.rx.Ok) (ha : w.rx.Accepted d)
    (hopen : w.rx.state.isDone d.chunkIndex = false)
    (hout : w.rx.state.expectedPkts d.chunkIndex ≤ d.packetIndex)
    (hcur : d.chunkIndex = w.rx.currentChunkIndex) : Ignores (handleData env o d) w := by
  have hne := CfdpReceiver.ne_uint32Max ha.chunk (h.sane ha.active).totalChunks.2
  have hbusy := h.busy ha.active (hcur ▸ hne)
  have hlist : (w.rx.take d).packetList = w.rx.packetList := by
    rw [CfdpReceiver.take_rejected h.toSteady ha hout, CfdpReceiver.listFor, if_pos hcur]
  have hleave : w.rx.leaveNak d.chunkIndex = none := CfdpReceiver.leaveNak_none (.inl hcur.symm)
  refine wp_handleData (fun hacc => ?_) (fun _ hdone => ?_) fun _ _ => ⟨fun pdu hp => ?_, ?_⟩
  · rw [CfdpReceiver.acceptsData_iff.mpr ha] at hacc
    cases hacc
  · rw [hopen] at hdone
    cases hdone
  · rw [hleave] at hp
    cases hp
  · rintro w₁ rfl
    rw [hleave, World.sendOption, World.setRx_rx, hlist]
    refine ⟨fun hc => ?_, fun _ => ?_⟩
    · rw [hbusy.incomplete] at hc
      cases hc
    · refine ⟨CfdpReceiver.take_state, ?_, ?_, hlist, rfl, rfl⟩
      · rw [World.setRx_rx, CfdpReceiver.take_currentChunkIndex, hcur]
      · exact CfdpReceiver.take_maxChunkSeen_of_le (hcur ▸ hbusy.seen)

/-- A packet of another chunk takes the place of the chunk in progress, even if no slot takes it. -/
theorem leaves_rejected (h : w.rx.Ok) (ha : w.rx.Accepted d)
    (hopen : w.rx.state.isDone d.chunkIndex = false)
    (hout : w.rx.state.expectedPkts d.chunkIndex ≤ d.packetIndex) :
    wp (handleData env o d) (fun _ => True) (fun _ x => x.rx.currentChunkIndex = d.chunkIndex)
      (fun _ _ => False) w := by
  refine wp_handleData (fun hacc => ?_) (fun _ hdone => ?_) fun _ _ => ⟨fun _ _ => trivial, ?_⟩
  · rw [CfdpReceiver.acceptsData_iff.mpr ha] at hacc
    cases hacc
  · rw [hopen] at hdone
    cases hdone
  · rintro w₁ rfl
    rw [World.setRx_rx, World.sendOption_rx, CfdpReceiver.take_rejected h.toSteady ha hout,
      h.toSteady.listFor_incomplete ha]
    exact ⟨fun hc => absurd hc Bool.false_ne_true, fun _ => CfdpReceiver.take_currentChunkIndex⟩

/-- **When a Data PDU that no slot takes is ignored.** In every reachable state, exactly if a test
rejects it or its chunk is the one in progress; what the dispatcher drops is ignored too. -/
theorem rejected_ignored_iff {ok : Node → Action → Prop} {n : Node} {hist : List Moment} (hn : n.Fresh)
    (h : Node.Run env ok n hist (.up w)) :
    (∀ o d, w.rx.Rejects d → (Ignores (handleData env o d) w ↔
      w.rx.acceptsData d = false ∨ d.chunkIndex = w.rx.currentChunkIndex)) ∧
    ∀ o payload, decodePdu (PduType.data.code :: payload) = none →
      Ignores (onPduReceived env o (PduType.data.code :: payload)) w := by
  have hok := (Node.Run.ok hn h).1
  refine ⟨fun o d hrej => ?_, fun o payload hd => ?_⟩
  · by_cases hacc : w.rx.acceptsData d = true
    · obtain ⟨hopen, hout⟩ := hrej hacc
      have ha := CfdpReceiver.acceptsData_iff.mp hacc
      constructor
      · intro hign
        have hleft := @leaves_rejected env o w d hok ha hopen hout
        obtain ⟨_, hres, hsame⟩ := hign.returns
        exact .inr ((hleft.ok hres).symm.trans hsame.currentChunkIndex)
      · rintro (hno | hcur)
        · rw [hacc] at hno
          cases hno
        · exact ignores_current hok ha hopen hout hcur
    · have hno : w.rx.acceptsData d = false := by simpa using hacc
      exact iff_of_true (ignores_unaccepted hno) (.inl hno)
  · rw [onPduReceived, hd]
    exact (wp_pure ()).mpr w.untouched_refl

/-- A file of four bytes in two chunks of two packets. -/
def twoPairs : Transfer := { Transfer.small [0x61, 0x62, 0x63, 0x64] with chunkSize := 2 }

/-- A third packet of a chunk. -/
def strayPacket (ci : Nat) : DataPdu := { twoPairs.dataPdu ci 0 with packetIndex := 2 }

/-- A receiver of that file with chunk 0 in progress, which survives packet 0 of chunk 1. -/
def HalfChunk (w : World) : Prop :=
  (∃ hist, Node.Run sampleEnv (fun _ _ => True) unusedNode hist (.up w)) ∧
    w.rx.currentChunkIndex = 0 ∧ w.rx.unfinished = true ∧ w.rx.state.Regular ∧
    (∀ ci, ci < 2 → w.rx.acceptsData (twoPairs.dataPdu ci 0) = true ∧
      w.rx.state.isDone (UInt32.ofNat ci) = false ∧ w.rx.state.expectedPkts (UInt32.ofNat ci) = 2) ∧
    ∃ w', w.Receives sampleEnv noFaults (twoPairs.packetRaw 1 0) w'

/-- `raw` puts chunk 0 in progress. -/
theorem run_twoPairs {raw : Bytes} {P : World → Bool}
    (hrun : (sampleRun [powerOn, deliver (twoPairs.metadataRaw sampleEnv.crc32), deliver raw]).any
      (fun r => r.2.world?.any fun w => w.rx.currentChunkIndex == 0 && w.rx.unfinished &&
        w.rx.transferActive && decide (w.rx.state.totalChunks.toNat =
            (w.rx.state.fileSize.toNat + w.rx.state.chunkSize.toNat - 1) /
              w.rx.state.chunkSize.toNat) &&
          decide (w.rx.state.chunkSize.toNat + w.rx.state.packetSize.toNat - 1 < 2 ^ 32) &&
        (List.range 2).all (fun ci => w.rx.acceptsData (twoPairs.dataPdu ci 0) &&
          !w.rx.state.isDone (UInt32.ofNat ci) && w.rx.state.expectedPkts (UInt32.ofNat ci) == 2) &&
        (w.receive sampleEnv (twoPairs.packetRaw 1 0, noFaults)).isSome && P w) = true) :
    ∃ w, HalfChunk w ∧ P w = true := by
  simp only [Option.any_eq_true, Node.world?_eq_some, Bool.and_eq_true, Bool.not_eq_true', beq_iff_eq,
    decide_eq_true_eq, Prod.exists, Option.isSome_iff_exists, List.all_eq_true, List.mem_range] at hrun
  obtain ⟨hist, n, hr, w, rfl, ⟨⟨⟨⟨⟨⟨hcur, hu⟩, hact⟩, htot⟩, hsz⟩, hpdus⟩, w', hw'⟩, hP⟩ := hrun
  have hok : Node.Run sampleEnv (fun _ _ => True) unusedNode hist (.up w) :=
    Machine.exec_run hr fun _ _ _ _ _ => trivial
  have hsane := (Node.Run.ok unusedNode_fresh hok).1.sane hact
  exact ⟨w, ⟨⟨hist, hok⟩, hcur, hu, ⟨hsane, htot, hsz⟩,
    fun ci hci => ⟨(hpdus ci hci).1.1, (hpdus ci hci).1.2, (hpdus ci hci).2⟩,
    w', World.receive_eq_some.mp hw'⟩, hP⟩

/-- A stray packet passes the tests. -/
theorem HalfChunk.stray {w : World} (h : HalfChunk w) {ci : Nat} (hci : ci < 2) :
    w.rx.Accepted (strayPacket ci) ∧ w.rx.Rejects (strayPacket ci) := by
  obtain ⟨-, -, -, -, hpdus, -⟩ := h
  obtain ⟨hacc, hopen, hnum⟩ := hpdus ci hci
  have hacc := CfdpReceiver.acceptsData_iff.mp hacc
  refine ⟨⟨hacc.active, hacc.tid, hacc.len, hacc.chunk, hacc.packets⟩, fun _ => ⟨hopen, ?_⟩⟩
  show w.rx.state.expectedPkts (UInt32.ofNat ci) ≤ 2
  rw [hnum]
  decide

/-- Packet 0 of chunk 0 has arrived. -/
theorem run_half : ∃ w, HalfChunk w ∧ w.rx.Holds 0 0 ∧ w.rx.state.eofReceived = false := by
  obtain ⟨w, h, hP⟩ := @run_twoPairs (twoPairs.packetRaw 0 0)
    (fun w => w.rx.packetList.index[0]?.any PacketNode.ok && !w.rx.state.eofReceived)
    (by decide +kernel)
  simp only [Bool.and_eq_true, Option.any_eq_true, Bool.not_eq_true'] at hP
  exact ⟨w, h, ⟨h.2.1, hP.1⟩, hP.2⟩

/-- A third packet of the chunk in progress is ignored. -/
theorem rejected_ignored_small : ∃ w, Ignores (handleData sampleEnv noFaults (strayPacket 0)) w := by
  obtain ⟨w, h, -⟩ := run_half
  obtain ⟨hist, hrun⟩ := h.1
  refine ⟨w, ((rejected_ignored_iff unusedNode_fresh hrun).1 noFaults (strayPacket 0)
    (h.stray (by decide)).2).mpr (.inr ?_)⟩
  exact h.2.1.symm

/-- A third packet of the other chunk is not. -/
theorem not_rejected_ignored : ¬ ∀ (env : Env) (n : Node) (hist : List Moment) (w : World) (o : Oracle)
    (d : DataPdu), n.Fresh → Node.Run env (fun _ _ => True) n hist (.up w) → w.rx.Rejects d →
      Ignores (handleData env o d) w := by
  intro hall
  obtain ⟨w, h, -⟩ := run_half
  obtain ⟨hist, hrun⟩ := h.1
  obtain ⟨hacc, hrej⟩ := @HalfChunk.stray w h 1 (by decide)
  obtain ⟨hopen, hout⟩ := hrej (CfdpReceiver.acceptsData_iff.mpr hacc)
  obtain ⟨_, hres, hsame⟩ :=
    (hall sampleEnv unusedNode hist w noFaults (strayPacket 1) unusedNode_fresh hrun hrej).returns
  have hleft := (leaves_rejected (Node.Run.ok unusedNode_fresh hrun).1 hacc hopen hout).ok hres
  have hcur := hleft.symm.trans (hsame.currentChunkIndex.trans h.2.1)
  exact absurd hcur (by decide)

end

/-! ## The NAK for the chunk that is left -/

namespace CfdpReceiver

/-- The Data PDU makes the receiver leave an incomplete chunk for another one. -/
structure Leaves (rx : CfdpReceiver) (d : DataPdu) : Prop where
  accepts : rx.acceptsData d = true
  open_ : rx.state.isDone d.chunkIndex = false
  other : d.chunkIndex ≠ rx.currentChunkIndex
  unfinished : rx.unfinished = true

/-- The packet is a whole chunk, and the completion check that follows finds the chunk that
was left first. -/
structure Rechecks (rx : CfdpReceiver) (d : DataPdu) : Prop where
  eof : rx.state.eofReceived = true
  whole : d.totalPackets = 1
  first : d.packetIndex = 0
  valid : Crc.crc8 d.data = d.crc8
  below : ∀ j, j < rx.currentChunkIndex → j ≠ d.chunkIndex → rx.state.isDone j = true

variable {rx : CfdpReceiver} {d : DataPdu} {c : UInt32} {nak : NakPdu} {env : Env} {o : Oracle}
  {v : Bool} {raw : Bytes}

theorem Leaves.accepted (h : rx.Leaves d) : rx.Accepted d := acceptsData_iff.mp h.accepts

/-- The chunk that is left. -/
theorem Leaves.inProgress (h : rx.Leaves d) (hok : rx.Ok) : rx.InProgress :=
  hok.busy h.accepted.active (unfinished_iff.mp h.unfinished).1

theorem Leaves.not_done (h : rx.Leaves d) : ¬ rx.state.isDone d.chunkIndex = true := by
  rw [h.open_]
  exact Bool.false_ne_true

theorem Leaves.flag_lt (h : rx.Leaves d) (hok : rx.Ok) :
    d.chunkIndex.toNat < rx.state.chunkDone.length := by
  rw [(hok.sane h.accepted.active).flags]
  exact h.accepted.chunk

theorem Holds.lt {q : Nat} (h : rx.Holds c q) (hwf : rx.packetList.Wf) :
    q < rx.packetList.totalPackets.toNat := by
  obtain ⟨-, node, hn, -⟩ := h
  rw [← hwf.length]
  exact (List.getElem?_eq_some_iff.mp hn).1

/-- A packet of another chunk completes its chunk only as the one packet of it. -/
theorem take_complete_iff (hne : d.chunkIndex ≠ rx.currentChunkIndex) :
    (rx.take d).packetList.isComplete = true ↔
      d.totalPackets = 1 ∧ d.packetIndex = 0 ∧ Crc.crc8 d.data = d.crc8 := by
  rw [take_packetList, listFor, if_neg hne, PacketList.init_insert_complete, beq_iff_eq]

/-- Without a chunk in progress, completion asks for the first missing chunk. -/
theorem completion_first (he : rx.state.eofReceived = true) (hcur : rx.currentChunkIndex = uint32Max)
    (hc : c < rx.state.totalChunks) (hopen : rx.state.isDone c = false)
    (hseen : c.toNat ≤ rx.maxChunkSeen.toNat) :
    ∃ k, rx.completion = .nak (serializeNak (rx.wholeNak k)) ∧
      (k = c ↔ ∀ j, j < c → rx.state.isDone j = true) := by
  cases hm : rx.state.computeMissingChunks with
  | nil =>
    rw [(JournalState.computeMissingChunks_eq_nil _).mp hm c hc] at hopen
    cases hopen
  | cons cr rs =>
    obtain ⟨-, hk, hbelow⟩ := JournalState.computeMissingChunks_head hm
    have hle : ¬ c < cr.firstChunk := fun hlt => by
      rw [hbelow c hlt] at hopen
      cases hopen
    rw [UInt32.lt_iff_toNat_lt] at hle
    refine ⟨cr.firstChunk, completion_sent rx he hcur hm (by omega), fun heq => heq ▸ hbelow, ?_⟩
    intro hall
    by_contra hne
    have hlt : cr.firstChunk < c := by
      rw [UInt32.lt_iff_toNat_lt]
      have : cr.firstChunk.toNat ≠ c.toNat := fun h => hne (UInt32.toNat_inj.mp h)
      omega
    rw [hall _ hlt] at hk
    cases hk

/-- The chunk that was left is missing when the packet is flushed. -/
theorem Leaves.flushed (h : rx.Leaves d) (hok : rx.Ok) :
    rx.currentChunkIndex < ((rx.take d).flushed d.chunkIndex).state.totalChunks ∧
      ((rx.take d).flushed d.chunkIndex).state.isDone rx.currentChunkIndex = false ∧
      rx.currentChunkIndex.toNat ≤ ((rx.take d).flushed d.chunkIndex).maxChunkSeen.toNat := by
  have hp := h.inProgress hok
  have hlt := h.flag_lt hok
  rw [flushed_take_state]
  refine ⟨UInt32.lt_iff_toNat_lt.mpr hp.lt, ?_, ?_⟩
  · rw [JournalState.isDone_markDone _ _ _ hlt, decide_eq_false h.other.symm, Bool.false_or]
    exact hp.open_
  · show _ ≤ (rx.take d).maxChunkSeen.toNat
    have := hp.seen
    rw [take_maxChunkSeen]
    omega

/-- If the packet is flushed and the Eof has been seen, the first missing chunk is asked for. -/
theorem Leaves.completion (h : rx.Leaves d) (hok : rx.Ok) (he : rx.state.eofReceived = true) :
    ∃ k, ((rx.take d).flushed d.chunkIndex).completion =
        .nak (serializeNak (((rx.take d).flushed d.chunkIndex).wholeNak k)) ∧
      (k = rx.currentChunkIndex ↔
        ∀ j, j < rx.currentChunkIndex → j ≠ d.chunkIndex → rx.state.isDone j = true) := by
  obtain ⟨h1, h2, h3⟩ := h.flushed hok
  have hlt := h.flag_lt hok
  have hdone (j : UInt32) : ((rx.take d).flushed d.chunkIndex).state.isDone j = true ↔
      (j ≠ d.chunkIndex → rx.state.isDone j = true) := by
    rw [flushed_take_state, JournalState.isDone_markDone _ _ _ hlt, Bool.or_eq_true, decide_eq_true_iff]
    exact or_iff_not_imp_left
  have he' : ((rx.take d).flushed d.chunkIndex).state.eofReceived = true := by
    rw [flushed_take_state]
    exact he
  obtain ⟨k, hk, hfirst⟩ := completion_first he' rfl h1 h2 h3
  simp only [hdone] at hfirst
  exact ⟨k, hk, hfirst⟩

/-- The fields after it. -/
theorem Leaves.reply (h : rx.Leaves d) (hok : rx.Ok) (hd : decodePdu raw = some (.data d)) :
    (rx.reply env o v raw).1 = rx.take d ∨
      (rx.reply env o v raw).1 = (rx.take d).flushed d.chunkIndex := by
  rw [CfdpReceiver.reply, hd]
  simp only [replyPdu, replyData, if_pos h.accepts, if_neg h.not_done]
  split
  · right
    unfold replyFlush
    split
    · next he =>
      rw [take_state] at he
      obtain ⟨k, hk, -⟩ := h.completion hok he
      rw [complete, hk]
    · rfl
  · exact .inl rfl

/-- Nothing of the chunk that was left is held after it. -/
theorem Leaves.not_holds (h : rx.Leaves d) (hok : rx.Ok)
    (hd : decodePdu raw = some (.data d)) (q : Nat) :
    ¬ (rx.reply env o v raw).1.Holds rx.currentChunkIndex q := by
  rintro ⟨hcur, -⟩
  rcases @Leaves.reply rx d env o v raw h hok hd with hr | hr
  · rw [hr, take_currentChunkIndex] at hcur
    exact h.other hcur
  · rw [hr] at hcur
    exact (unfinished_iff.mp h.unfinished).1 hcur.symm

/-- The transfer goes on, with the chunk that was left still to do. -/
theorem Leaves.goes_on (h : rx.Leaves d) (hok : rx.Ok) (hg : rx.state.Regular)
    (hd : decodePdu raw = some (.data d)) {rx' : CfdpReceiver} (hrx : rx' = (rx.reply env o v raw).1) :
    rx'.transferActive = true ∧ rx'.state.Regular ∧
      rx'.state.isDone rx.currentChunkIndex = false ∧
      rx'.state.totalChunks = rx.state.totalChunks ∧
      ∀ c, rx'.state.numPackets c = rx.state.numPackets c := by
  subst hrx
  have ha := h.accepted
  rcases @Leaves.reply rx d env o v raw h hok hd with hr | hr
  · rw [hr, take_state, take_transferActive]
    exact ⟨ha.active, hg, (h.inProgress hok).open_, rfl, fun _ => rfl⟩
  · have hopen := (h.flushed hok).2.1
    rw [hr, flushed_take_active ha]
    rw [flushed_take_state] at hopen ⊢
    exact ⟨rfl, hg.markDone _, hopen, rfl, fun _ => rfl⟩

/-- It begins with the NAK for the chunk that is left. -/
theorem Leaves.leaveNak (h : rx.Leaves d) (hok : rx.Ok) (hg : rx.state.Regular) :
    rx.leaveNak d.chunkIndex = some (serializeNak rx.progressNak) := by
  have hp := h.inProgress hok
  have hpos : 0 < rx.packetList.totalPackets.toNat := by
    rw [hp.slots, hg.expectedPkts hp.lt]
    exact hg.numPackets_pos hp.lt
  have hu : (d.chunkIndex != rx.currentChunkIndex && rx.unfinished) = true := by
    rw [h.unfinished, Bool.and_true]
    exact bne_iff_ne.mpr h.other
  rw [CfdpReceiver.leaveNak, if_pos hu]
  exact packetNak_busy hok.wf hp.incomplete hpos

theorem Leaves.leaveNak_sent (h : rx.Leaves d) (hd : decodePdu raw = some (.data d)) {pdu : Bytes}
    (hl : rx.leaveNak d.chunkIndex = some pdu) : pdu ∈ (rx.reply env o v raw).2 := by
  rw [CfdpReceiver.reply, hd]
  simp only [replyPdu, replyData, if_pos h.accepts, if_neg h.not_done, hl]
  split
  · exact List.mem_append_left _ (List.mem_singleton_self _)
  · exact List.mem_singleton_self _

theorem requests_of_proper {missing : Nat → Prop} (hp : nak.Proper rx.state c)
    (hall : ∀ pi, missing pi → pi ∈ nak.packets) :
    nak.Requests rx.state.transactionId c missing :=
  ⟨hp.tid, hp.chunk, fun pi hpi => NakPdu.mem_packets.mp (hall pi hpi)⟩

/-- What is missing of the chunk that was left is asked for. -/
def LeftNaked (rx : CfdpReceiver) (env : Env) (o : Oracle) (v : Bool) (raw : Bytes) : Prop :=
  Naked (rx.reply env o v raw).2 rx.state.transactionId rx.currentChunkIndex fun pi =>
    pi < rx.state.numPackets rx.currentChunkIndex.toNat ∧
      ¬ (rx.reply env o v raw).1.Holds rx.currentChunkIndex pi

theorem Leaves.slots (h : rx.Leaves d) (hok : rx.Ok) (hg : rx.state.Regular) :
    rx.packetList.totalPackets.toNat = rx.state.numPackets rx.currentChunkIndex.toNat := by
  have hp := h.inProgress hok
  rw [hp.slots, hg.expectedPkts hp.lt]

/-- The NAK sent on leaving the chunk asks for what was not held before. -/
theorem Leaves.exact_progressNak (h : rx.Leaves d) (hok : rx.Ok) (hg : rx.state.Regular) :
    Exact rx rx.progressNak rx.currentChunkIndex :=
  CfdpReceiver.exact_progressNak hok.toSteady h.accepted.active hg (unfinished_iff.mp h.unfinished).1

/-- It covers the chunk if nothing was held. -/
theorem Leaves.naked_of_none (h : rx.Leaves d) (hok : rx.Ok) (hg : rx.state.Regular)
    (hd : decodePdu raw = some (.data d)) (hnone : ∀ pi, ¬ rx.Holds rx.currentChunkIndex pi) :
    rx.LeftNaked env o v raw := by
  have hp := h.inProgress hok
  have hbusy := packetNak_busy hok.wf hp.incomplete
    (by rw [h.slots hok hg]; exact hg.numPackets_pos hp.lt)
  refine ⟨_, h.leaveNak_sent hd (h.leaveNak hok hg), requests_of_proper
    (proper_progressNak hok.toSteady h.accepted.active hg (unfinished_iff.mp h.unfinished).1
      (packetNak_eq hbusy).2) fun pi hpi => ?_⟩
  exact (h.exact_progressNak hok hg pi).mpr ⟨hpi.1, hnone pi⟩

/-- The completion check that finds the chunk asks for all of it. -/
theorem Leaves.naked_of_rechecks (h : rx.Leaves d) (hok : rx.Ok) (hg : rx.state.Regular)
    (hd : decodePdu raw = some (.data d)) (hre : rx.Rechecks d) : rx.LeftNaked env o v raw := by
  have hc : rx.Completes d := ⟨h.accepts, h.open_,
    (take_complete_iff h.other).mpr ⟨hre.whole, hre.first, hre.valid⟩⟩
  have hchecks := checks_data hd hc hre.eof
  obtain ⟨k, hk, hfirst⟩ := h.completion hok hre.eof
  obtain rfl := hfirst.mpr hre.below
  have hsuffix := (@reply_checks rx env o v raw _ hchecks).2
  rw [complete, hk] at hsuffix
  obtain ⟨h1, h2, -⟩ := h.flushed hok
  obtain ⟨-, -, hg₁, -⟩ := hok.checks hg hchecks
  have hlt : rx.currentChunkIndex.toNat <
      ((rx.take d).flushed d.chunkIndex).state.totalChunks.toNat := UInt32.lt_iff_toNat_lt.mp h1
  have hproper := proper_wholeNak hg₁ hlt h2
  have hwhole := exact_wholeNak hg₁ hlt rfl
  rw [Exact] at hwhole
  rw [flushed_take_state] at hproper hwhole
  refine ⟨_, hsuffix.subset (List.mem_singleton_self _), requests_of_proper hproper.unmark ?_⟩
  intro pi hpi
  exact (hwhole pi).mpr ⟨hpi.1, fun hholds =>
    (unfinished_iff.mp h.unfinished).1 hholds.1.symm⟩

/-- **What the NAKs of the reply cover.** -/
theorem Leaves.naked_iff (h : rx.Leaves d) (hok : rx.Ok) (hg : rx.state.Regular)
    (hd : decodePdu raw = some (.data d)) : rx.LeftNaked env o v raw ↔
      (∀ pi, ¬ rx.Holds rx.currentChunkIndex pi) ∨ rx.Rechecks d := by
  refine ⟨?_, fun hcase => hcase.elim (h.naked_of_none hok hg hd) (h.naked_of_rechecks hok hg hd)⟩
  rintro ⟨nak, hmem, hreq⟩
  have hcover (pi : Nat) (hpi : pi < rx.state.numPackets rx.currentChunkIndex.toNat) :
      pi ∈ nak.packets :=
    NakPdu.mem_packets.mpr (hreq.covers pi ⟨hpi, h.not_holds hok hd pi⟩)
  rcases reply_nak hmem rfl with ⟨d', hd', -, hleave⟩ | ⟨rx₁, hchecks, hcompl⟩
  · -- the NAK sent on leaving the chunk asks for every packet
    rw [hd] at hd'
    cases hd'
    rw [h.leaveNak hok hg] at hleave
    have hnak := serializeNak_inj (Option.some.inj hleave)
    refine .inl fun pi hholds => ?_
    have hlt : pi < rx.state.numPackets rx.currentChunkIndex.toNat :=
      h.slots hok hg ▸ hholds.lt hok.wf
    have hin := hcover pi hlt
    rw [← hnak] at hin
    exact ((h.exact_progressNak hok hg pi).mp hin).2 hholds
  · -- the NAK of the completion check is for the chunk that was left
    rcases checks_eq_some hchecks with ⟨eof, hd', -, -⟩ | ⟨d', hd', hc, he, rfl⟩
    · rw [hd] at hd'
      cases hd'
    · rw [hd] at hd'
      cases hd'
      obtain ⟨k, hk, hfirst⟩ := h.completion hok he
      rw [hcompl] at hk
      have hnak := serializeNak_inj (Completion.nak.inj hk)
      subst hnak
      have hkc : k = rx.currentChunkIndex := hreq.chunk _ (List.mem_singleton_self _)
      obtain ⟨hone, hzero, hcrc⟩ := (take_complete_iff h.other).mp hc.complete
      exact .inr ⟨he, hone, hzero, hcrc, hfirst.mp hkc⟩

end CfdpReceiver

section

variable {env : Env} {o : Oracle} {w w' : World} {d : DataPdu} {raw : Bytes}

/-- A NAK that covers the chunk is enough to complete it. -/
theorem leave_completes {raws : List Bytes} {nak : NakPdu} (h : w.rx.Leaves d) (hok : w.rx.Ok)
    (hg : w.rx.state.Regular) (hd : decodePdu raw = some (.data d)) (hw' : w.Receives env o raw w')
    (hmem : serializeNak nak ∈ w.sentSince w')
    (hreq : nak.Requests w.rx.state.transactionId w.rx.currentChunkIndex fun pi =>
      pi < w.rx.state.numPackets w.rx.currentChunkIndex.toNat ∧
        ¬ w'.rx.Holds w.rx.currentChunkIndex pi)
    (hpdus : ∀ raw ∈ raws, ∃ pi ∈ nak.packets, w'.rx.state.Delivers w.rx.currentChunkIndex pi raw)
    (hall : ∀ pi ∈ nak.packets, ∃ raw ∈ raws, w'.rx.state.Delivers w.rx.currentChunkIndex pi raw) :
    (∃ w'', w'.Takes env raws w'') ∧ ∀ w'', w'.Takes env raws w'' →
      w''.rx.state.isDone w.rx.currentChunkIndex = true := by
  obtain ⟨hrx, hsent⟩ := hw'.replied
  have hok' : w'.rx.Ok := by
    rw [hrx]
    exact hok.reply _ raw
  rw [World.sentSince_eq hsent] at hmem
  obtain ⟨nak', c, hnak, hproper, -⟩ := CfdpReceiver.reply_nak_proper hok hg hmem rfl
  obtain rfl := serializeNak_inj hnak
  -- the NAK asks for something, all of it of the chunk that was left
  obtain ⟨r, hr⟩ := List.exists_mem_of_ne_nil _ hproper.nonempty
  have hc : c = w.rx.currentChunkIndex := (hproper.chunk r hr).symm.trans (hreq.chunk r hr)
  subst hc
  obtain ⟨hactive, hg', hopen, htotal, hnum⟩ := h.goes_on hok hg hd hrx
  have hcoming : Coming w'.rx.state w.rx.currentChunkIndex raws w'.rx := by
    refine ⟨hactive, rfl, fun pi hpi => ?_⟩
    by_cases hheld : w'.rx.Holds w.rx.currentChunkIndex pi
    · exact .inl hheld
    · exact .inr (hall pi (NakPdu.mem_packets.mpr (hreq.covers pi ⟨hnum _ ▸ hpi, hheld⟩)))
  have hraws : ∀ raw ∈ raws, ∃ pi, pi < w'.rx.state.numPackets w.rx.currentChunkIndex.toNat ∧
      w'.rx.state.Delivers w.rx.currentChunkIndex pi raw := by
    intro raw hraw
    obtain ⟨pi, hpi, hdel⟩ := hpdus raw hraw
    obtain ⟨q, hq, -, hle⟩ := NakPdu.mem_packets.mp hpi
    have := (hproper.bounds q hq).2
    exact ⟨pi, by rw [hnum]; omega, hdel⟩
  obtain ⟨hex, hdone⟩ := hcoming.takes hok' hg' (by rw [htotal]; exact hproper.lt) hopen hraws
  exact ⟨hex, fun w'' ht => (hdone w'' ht).2⟩

/-- **What the NAK for a chunk that is left covers.** In every reachable state with a record of
regular geometry, a Data PDU that makes the receiver leave an incomplete chunk is answered by a NAK
for all packets of that chunk the receiver does not hold afterwards, exactly if none was held before,
or if the completion check after it asks for the chunk; and the packets of such a NAK complete it. -/
theorem leave_naked_iff {ok : Node → Action → Prop} {n : Node} {hist : List Moment} (hn : n.Fresh)
    (h : Node.Run env ok n hist (.up w)) (hg : w.rx.state.Regular)
    (hd : decodePdu raw = some (.data d)) (hl : w.rx.Leaves d) (hw' : w.Receives env o raw w') :
    (Naked (w.sentSince w') w.rx.state.transactionId w.rx.currentChunkIndex (fun pi =>
        pi < w.rx.state.numPackets w.rx.currentChunkIndex.toNat ∧
          ¬ w'.rx.Holds w.rx.currentChunkIndex pi) ↔
      (∀ pi, ¬ w.rx.Holds w.rx.currentChunkIndex pi) ∨ w.rx.Rechecks d) ∧
    ∀ nak, serializeNak nak ∈ w.sentSince w' →
      nak.Requests w.rx.state.transactionId w.rx.currentChunkIndex (fun pi =>
        pi < w.rx.state.numPackets w.rx.currentChunkIndex.toNat ∧
          ¬ w'.rx.Holds w.rx.currentChunkIndex pi) →
      ∀ raws, (∀ raw ∈ raws, ∃ pi ∈ nak.packets, w'.rx.state.Delivers w.rx.currentChunkIndex pi raw) →
        (∀ pi ∈ nak.packets, ∃ raw ∈ raws, w'.rx.state.Delivers w.rx.currentChunkIndex pi raw) →
        (∃ w'', w'.Takes env raws w'') ∧ ∀ w'', w'.Takes env raws w'' →
          w''.rx.state.isDone w.rx.currentChunkIndex = true := by
  have hok := (Node.Run.ok hn h).1
  refine ⟨?_, fun nak hmem hreq raws => leave_completes hl hok hg hd hw' hmem hreq⟩
  obtain ⟨hrx, hsent⟩ := hw'.replied
  rw [World.sentSince_eq hsent, hrx]
  exact hl.naked_iff hok hg hd

/-- Packet 0 of chunk 1 makes the receiver leave chunk 0. -/
theorem HalfChunk.leaves (h : HalfChunk w) : w.rx.Leaves (twoPairs.dataPdu 1 0) := by
  obtain ⟨-, hcur, hu, -, hpdus, -⟩ := h
  obtain ⟨hacc, hopen, -⟩ := hpdus 1 (by decide)
  refine ⟨hacc, hopen, ?_, hu⟩
  rw [hcur]
  decide

theorem decodePdu_twoPairs :
    decodePdu (twoPairs.packetRaw 1 0) = some (.data (twoPairs.dataPdu 1 0)) := by
  decide +kernel

/-- Packet 0 of chunk 0 with a wrong CRC-8. -/
def damagedPacket : DataPdu := { twoPairs.dataPdu 0 0 with crc8 := 0 }

/-- Nothing valid has arrived of the chunk that is left. -/
theorem leave_naked_small : ∃ w w' : World,
    w.Receives sampleEnv noFaults (twoPairs.packetRaw 1 0) w' ∧
      Naked (w.sentSince w') w.rx.state.transactionId w.rx.currentChunkIndex fun pi =>
        pi < w.rx.state.numPackets w.rx.currentChunkIndex.toNat ∧
          ¬ w'.rx.Holds w.rx.currentChunkIndex pi := by
  obtain ⟨w, h, hP⟩ := @run_twoPairs (PduType.data.code :: damagedPacket.toBytes)
    (fun w => w.rx.packetList.index.all fun node => !node.ok) (by decide +kernel)
  rw [List.all_eq_true] at hP
  obtain ⟨hist, hrun⟩ := h.1
  obtain ⟨-, -, -, hg, -, w', hw'⟩ := id h
  refine ⟨w, w', hw', (leave_naked_iff unusedNode_fresh hrun hg decodePdu_twoPairs h.leaves hw').1.mpr
    (.inl ?_)⟩
  rintro pi ⟨-, node, hn, hok⟩
  have := hP node (List.mem_of_getElem? hn)
  rw [hok] at this
  cases this

/-- Packet 0 of chunk 0 is dropped, and no NAK asks for it. -/
theorem not_leave_naked : ¬ ∀ (env : Env) (n : Node) (hist : List Moment) (w w' : World) (o : Oracle)
    (d : DataPdu) (raw : Bytes), n.Fresh → Node.Run env (fun _ _ => True) n hist (.up w) →
      w.rx.state.Regular → decodePdu raw = some (.data d) → w.rx.Leaves d →
      w.Receives env o raw w' →
      Naked (w.sentSince w') w.rx.state.transactionId w.rx.currentChunkIndex fun pi =>
        pi < w.rx.state.numPackets w.rx.currentChunkIndex.toNat ∧
          ¬ w'.rx.Holds w.rx.currentChunkIndex pi := by
  intro hall
  obtain ⟨w, h, hheld, heof⟩ := run_half
  obtain ⟨hist, hrun⟩ := h.1
  obtain ⟨-, hcur, -, hg, -, w', hw'⟩ := id h
  have hnaked := hall sampleEnv unusedNode hist w w' noFaults _ _ unusedNode_fresh hrun hg
    decodePdu_twoPairs h.leaves hw'
  obtain ⟨hrx, hsent⟩ := hw'.replied
  rw [World.sentSince_eq hsent, hrx] at hnaked
  have hok := (Node.Run.ok unusedNode_fresh hrun).1
  rcases (h.leaves.naked_iff hok hg decodePdu_twoPairs).mp hnaked with hnone | hre
  · exact hnone 0 (hcur ▸ hheld)
  · rw [hre.eof] at heof
    cases heof

end

end Cfdp
