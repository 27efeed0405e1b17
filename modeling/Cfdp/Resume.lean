import Cfdp.Answers

/-!
# Resuming a transfer

A sender session of which nothing is lost: Metadata, ResumeQuery, and a round for each
chunk from the one answered on (`Round`, `AreRounds`). `session_completes` says that it
completes the transfer from every state that losses, reorderings and crashes have left.

The invariant of a round is `Collected`: what the receiver has made of the packets of
the round so far. A leftover list of another chunk is dropped by the first packet, one
of the same chunk is only ahead.
-/

namespace Cfdp

open Crash Prog

/-! ## Replies when a complete file verifies -/

namespace CfdpReceiver

variable {rx : CfdpReceiver} {env : Env} {o : Oracle} {verified : Bool} {raw : Bytes} {d : DataPdu}

/-- The verdict matters only once every chunk is done. -/
theorem complete_congr (h : rx.state.computeMissingChunks = [] → verified = true) :
    rx.complete verified = rx.complete true := by
  unfold complete
  cases hc : rx.completion with
  | silent => rfl
  | nak => rfl
  | verify => rw [h (completion_verify hc).2.2]

theorem replyFlush_congr {ci : UInt32}
    (h : (rx.state.markDone ci).computeMissingChunks = [] → verified = true) :
    rx.replyFlush verified ci = rx.replyFlush true ci := by
  unfold replyFlush
  rw [show (rx.flushed ci).complete verified = (rx.flushed ci).complete true from complete_congr h]

theorem reply_congr (h : rx.transferActive = true →
      (rx.reply env o verified raw).1.state.computeMissingChunks = [] → verified = true) :
    rx.reply env o verified raw = rx.reply env o true raw := by
  unfold reply at h ⊢
  cases hd : decodePdu raw with
  | none => rfl
  | some pdu =>
    rw [hd] at h
    cases pdu with
    | metadata m => rfl
    | resumeQuery query => rfl
    | data d =>
      simp only [replyPdu, replyData] at h ⊢
      split
      · next hacc =>
        have hact := (acceptsData_iff.mp hacc).active
        rw [if_pos hacc] at h
        split
        · rfl
        · next hopen =>
          rw [if_neg hopen] at h
          split
          · next hc =>
            rw [if_pos hc] at h
            rw [replyFlush_congr fun hm => h hact ?_]
            unfold replyFlush
            split
            · rw [complete_state]; exact hm
            · exact hm
          · rfl
      · rfl
    | eof eof =>
      simp only [replyPdu, replyEof] at h ⊢
      split
      · next hacc =>
        rw [if_pos hacc] at h
        exact complete_congr fun hm => h (active_of_acceptsEof hacc) (by rw [complete_state]; exact hm)
      · rfl

/-- The transfer of `t` ends with its final ACK. -/
def Closes (t : UInt32) (r : Reply) : Prop :=
  r.1.transferActive = false ∧ AckPdu.raw ⟨t, uint32Max⟩ ∈ r.2

theorem complete_true (rx : CfdpReceiver) :
    (rx.complete true).1 = rx ∨ Closes rx.state.transactionId (rx.complete true) := by
  unfold complete
  cases rx.completion with
  | silent => exact .inl rfl
  | nak => exact .inl rfl
  | verify => exact .inr ⟨rfl, List.mem_singleton_self _⟩

theorem replyEof_true {eof : EofPdu} (ha : rx.acceptsEof eof = true) :
    (rx.replyEof true eof).1 = { rx with state := rx.state.markEof } ∨
      Closes rx.state.transactionId (rx.replyEof true eof) := by
  unfold replyEof
  rw [if_pos ha]
  exact complete_true { rx with state := rx.state.markEof }

/-- A packet of a chunk that is done. -/
theorem replyData_done (ha : rx.acceptsData d = true) (hd : rx.state.isDone d.chunkIndex = true) :
    rx.replyData verified d =
      (rx.see d.chunkIndex, if d.packetIndex = 0 then [rx.ack d.chunkIndex] else []) := by
  rw [replyData, if_pos ha, if_pos hd]

/-- A packet of a chunk that is not done is stored, or completes the chunk. -/
theorem replyData_open (ha : rx.acceptsData d = true) (hd : rx.state.isDone d.chunkIndex = false) :
    (rx.replyData true d).1 = rx.take d ∨
      (rx.ack d.chunkIndex ∈ (rx.replyData true d).2 ∧
        ((rx.replyData true d).1 = (rx.take d).flushed d.chunkIndex ∨
          Closes rx.state.transactionId (rx.replyData true d))) := by
  have hne : ¬ rx.state.isDone d.chunkIndex = true := by rw [hd]; exact Bool.false_ne_true
  have hack : rx.ack d.chunkIndex = (rx.take d).ack d.chunkIndex := by rw [ack, ack, take_state]
  rw [replyData, if_pos ha, if_neg hne]
  split
  · right
    have htid : rx.state.transactionId = ((rx.take d).flushed d.chunkIndex).state.transactionId := by
      show _ = (rx.take d).state.transactionId
      rw [take_state]
    unfold replyFlush
    split
    · refine ⟨List.mem_append_right _ (hack ▸ List.mem_cons_self), ?_⟩
      rcases complete_true ((rx.take d).flushed d.chunkIndex) with h | ⟨h1, h2⟩
      · exact .inl h
      · exact .inr ⟨h1, List.mem_append_right _ (List.mem_cons_of_mem _ (htid ▸ h2))⟩
    · exact ⟨List.mem_append_right _ (hack ▸ List.mem_singleton_self _), .inl rfl⟩
  · exact .inl rfl

end CfdpReceiver

namespace Transfer

variable {env : Env} {x : Transfer} {o : Oracle} {rx : CfdpReceiver} {w w' : World} {raw : Bytes}
  {c p ci : Nat} {out : List Bytes}

/-! ## Packets of the file -/

/-- The packets of a chunk start inside it. -/
theorem packet_start (hps : 0 < x.packetSize) (hp : p < x.numPackets c) :
    p * x.packetSize < x.chunkLen c := by
  have hmul : (p + 1) * x.packetSize ≤ x.chunkLen c + x.packetSize - 1 :=
    (Nat.mul_le_mul_right _ hp).trans (Nat.div_mul_le_self _ _)
  rw [Nat.add_mul, Nat.one_mul] at hmul
  omega

/-- Every packet of every chunk can be packed. -/
theorem Sizes.inFile (hx : x.Sizes) (hc : c < x.totalChunks) (hc32 : c < 2 ^ 32)
    (hp : p < x.numPackets c) :
    x.InFile c p := by
  have hchunk := chunk_lt hx.chunkSize hc
  have hlen : x.chunkLen c ≤ x.chunkSize := Nat.min_le_right _ _
  have hps := hx.packetSize
  have hsz := hx.sizes
  have hnum : x.numPackets c ≤ x.chunkLen c + x.packetSize - 1 := Nat.div_le_self _ _
  have hstart := packet_start hps.1 hp
  have hpk : x.packetLen c p ≤ x.packetSize := Nat.min_le_right _ _
  have hdef : defaultPacketSize = 4096 := rfl
  exact ⟨hps.1, hchunk.le, hstart.le, hc32, by omega, by omega, by omega⟩

theorem Sizes.packetLen_pos (hx : x.Sizes) (hp : p < x.numPackets c) : 0 < x.packetLen c p := by
  have hps := hx.packetSize.1
  have hstart := packet_start hps hp
  unfold packetLen
  omega

theorem WellFormed.inFile (hx : x.WellFormed) (hc : c < x.totalChunks) (hp : p < x.numPackets c) :
    x.InFile c p := by
  have htot := hx.totalChunks
  exact hx.toSizes.inFile hc (by omega) hp

theorem WellFormed.packetLen_pos (hx : x.WellFormed) (hp : p < x.numPackets c) : 0 < x.packetLen c p :=
  hx.toSizes.packetLen_pos hp

theorem WellFormed.packet (hx : x.WellFormed) (hc : c < x.totalChunks) (hp : p < x.numPackets c) :
    x.packet c p = some (x.packetRaw c p) := by
  refine x.packetRaw_eq c p ?_
  rw [packet_of_inFile (hx.inFile hc hp)]; rfl

theorem WellFormed.decodePdu_packetRaw (hx : x.WellFormed) (hc : c < x.totalChunks)
    (hp : p < x.numPackets c) : decodePdu (x.packetRaw c p) = some (.data (x.dataPdu c p)) :=
  (decodePdu_packet (hx.packet hc hp) hx.packetSize.2).2

theorem WellFormed.packable (hx : x.WellFormed) (env : Env) :
    ∃ name, x.Packable name ∧ (x.metadata env.crc32 name).sane = true := by
  obtain ⟨name, hname, hsafe⟩ := hx.name
  have hlen := hx.length_lt; have htot := hx.totalChunks; have hpos := hx.totalChunks_pos
  have hcs := hx.chunkSize; have hps := hx.packetSize; have hsz := hx.sizes
  have hdef : defaultPacketSize = 4096 := rfl
  have hp : x.Packable name := ⟨hname, by omega, by omega, by omega, by omega⟩
  have htot' : (x.metadata env.crc32 name).totalChunks.toNat = x.totalChunks := by
    unfold metadata
    rw [UInt32.toNat_ofNat', Nat.mod_eq_of_lt hp.totalChunks]
  have hps' : (x.metadata env.crc32 name).packetSize.toNat = x.packetSize := by
    unfold metadata
    rw [UInt32.toNat_ofNat', Nat.mod_eq_of_lt hp.packetSize]
  have hcs' : (x.metadata env.crc32 name).chunkSize.toNat = x.chunkSize := by
    unfold metadata
    rw [UInt32.toNat_ofNat', Nat.mod_eq_of_lt hp.chunkSize.2]
  refine ⟨name, hp, MetadataPdu.sane_iff.mpr ⟨by omega, by omega, by omega, ?_⟩⟩
  have hcut := cstr_ofBytes (show (name.take 255).length < 256 by rw [List.length_take]; omega) []
  rw [List.append_nil] at hcut
  show safeName (cstr (CharArray.ofBytes 256 (name.take 255)).toList) = true
  rw [hcut]; exact hsafe

theorem WellFormed.metadataPdu (hx : x.WellFormed) (env : Env) :
    x.metadataPdu env.crc32 = some (x.metadataRaw env.crc32) := by
  obtain ⟨name, hp, -⟩ := hx.packable env
  refine metadataRaw_eq ?_
  rw [metadataPdu_of_packable hp]
  rfl

/-- The receiver takes every packet of an active transfer. -/
theorem Matches.accepts (hm : x.Matches env rx.state) (hx : x.WellFormed)
    (ha : rx.transferActive = true)
    (hc : c < x.totalChunks) (hp : p < x.numPackets c) : rx.Accepted (x.dataPdu c p) := by
  have hin := hx.inFile hc hp
  have hlen := hx.packetLen_pos hp
  have hle : x.packetLen c p ≤ x.packetSize := Nat.min_le_right _ _
  have hps := hx.packetSize.2
  refine ⟨ha, hm.tid.symm, ?_, ?_, ?_⟩
  · rw [hin.toNat_packetLen]; omega
  · rw [hin.toNat_chunkIndex, hm.totalChunks]; exact hc
  · refine UInt32.toNat_inj.mp ?_
    rw [hin.toNat_totalPackets, hm.expectedPkts hx (by rw [hin.toNat_chunkIndex]; exact hc),
      hin.toNat_chunkIndex]

/-! ## A receiver of the transfer -/

/-- A running receiver between PDUs. -/
structure Live (env : Env) (x : Transfer) (w : World) : Prop where
  inv : Inv env x 0 w
  ok : w.rx.Ok

/-- A complete file has its checksum. -/
theorem checksum_eq (hc : Crc.Composes env.crc32) (hne : x.file ≠ []) :
    Crc.crc32File env.crc32 x.file = x.checksum env.crc32 := by
  unfold checksum
  rw [Crc.crc32File_eq hc hne, Crc.crc32FilePy_eq hc hne]

theorem Matches.verified (hrec : x.Matches env w.rx.state) (hx : x.WellFormed)
    (hc : Crc.Composes env.crc32)
    (ho : o.Smooth) (hfile : w.disk.files (x.path env) = some x.file) :
    verifyFileChecksum env o w = true := by
  unfold verifyFileChecksum
  rw [crc32OfPath, ho .destRead, if_neg Bool.false_ne_true, hrec.path, hfile]
  simp [checksum_eq hc hx.file, hrec.checksum]

theorem Inv.verified (h : Inv env x 0 w) (hx : x.WellFormed) (hc : Crc.Composes env.crc32)
    (ho : o.Smooth) (hrec : x.Matches env w.rx.state) (hm : w.rx.state.computeMissingChunks = []) :
    verifyFileChecksum env o w = true :=
  hrec.verified hx hc ho (h.marks.file h.fits hrec hm)

theorem marked_matches (env : Env) (x : Transfer) : Marked (x.Matches env) :=
  ⟨fun _ ci h => h.markDone ci, fun _ h => h.markEof⟩

/-- A PDU that keeps the invariant gets the reply of a receiver whose file verifies. -/
theorem Live.replied (h : x.Live env w) (hx : x.WellFormed) (hc : Crc.Composes env.crc32)
    (ho : o.Smooth) (hw' : w.Receives env o raw w') (hinv : Inv env x 0 w')
    (hstarts : ∀ m, decodePdu raw = some (.metadata m) → w.rx.accepts m = true →
      ∃ name, x.Packable name ∧ m = x.metadata env.crc32 name) :
    ∃ w', w.receive env (raw, o) = some w' ∧ x.Live env w' ∧
      w.Replied (w.rx.reply env o true raw) w' := by
  have hrep := hw'.replied
  have hverified (ha : w.rx.transferActive = true)
      (hm : (w.rx.reply env o (verifyFileChecksum env o w') raw).1.state.computeMissingChunks = []) :
      verifyFileChecksum env o w' = true := by
    rw [← hrep.1] at hm
    refine hinv.verified hx hc ho ?_ hm
    rw [hrep.1]
    refine CfdpReceiver.reply_state (marked_matches env x) (h.inv.record ha) fun m hd hacc => ?_
    obtain ⟨name, hp, rfl⟩ := hstarts m hd hacc
    exact matches_start hp (CfdpReceiver.sane_of_accepts hacc) _
  rw [CfdpReceiver.reply_congr hverified] at hrep
  exact ⟨w', World.receive_eq_some.mpr hw', ⟨hinv, by rw [hrep.1]; exact h.ok.reply _ _⟩, hrep⟩

/-- **A PDU of the transfer gets the reply of a receiver whose file verifies.** -/
theorem Live.receives (h : x.Live env w) (hx : x.WellFormed) (hc : Crc.Composes env.crc32)
    (ho : o.Smooth) (hraw : x.Emits env.crc32 raw) :
    ∃ w', w.receive env (raw, o) = some w' ∧ x.Live env w' ∧
      w.Replied (w.rx.reply env o true raw) w' := by
  obtain ⟨w', hw', hinv⟩ := receives_of_wp (h.inv.onPduReceived ho hraw)
  exact h.replied hx hc ho hw' hinv fun m hd _ => hraw.metadata_eq hd

/-! ## Rounds -/

/-- The acknowledgement of chunk `ci`, and the final one. -/
def chunkAck (x : Transfer) (ci : Nat) : Bytes := AckPdu.raw ⟨x.tid, UInt32.ofNat ci⟩

def finalAck (x : Transfer) : Bytes := AckPdu.raw ⟨x.tid, uint32Max⟩

/-- A packet on its way, with the outcomes of the calls it makes. -/
structure Sending where
  chunk : Nat
  packet : Nat
  o : Oracle

def Sending.delivery (x : Transfer) (s : Sending) : Bytes × Oracle :=
  (x.packetRaw s.chunk s.packet, s.o)

/-- Packets of chunk `ci`, or of chunks done when they arrive. -/
def Packets (env : Env) (x : Transfer) (ci : Nat) : World → List Sending → Prop
  | _, [] => True
  | w, s :: ss => s.o.Smooth ∧ s.chunk < x.totalChunks ∧ s.packet < x.numPackets s.chunk ∧
      (s.chunk = ci ∨ w.rx.state.isDone (UInt32.ofNat s.chunk) = true) ∧
      ∀ w', w.receive env (s.delivery x) = some w' → Packets env x ci w' ss

/-- Packets, then an Eof. -/
structure Round where
  packets : List Sending
  eof : Oracle

def Round.deliveries (env : Env) (x : Transfer) (r : Round) : List (Bytes × Oracle) :=
  r.packets.map (Sending.delivery x) ++ [(x.eofPdu env.crc32, r.eof)]

/-- The round of chunk `ci`: all its packets, in any order, with duplicates. -/
structure IsRound (env : Env) (x : Transfer) (ci : Nat) (w : World) (r : Round) : Prop where
  packets : x.Packets env ci w r.packets
  all : ∀ pi, pi < x.numPackets ci → ∃ s ∈ r.packets, s.chunk = ci ∧ s.packet = pi
  eof : r.eof.Smooth

/-- Rounds of chunks `ci`, `ci + 1`, … -/
def AreRounds (env : Env) (x : Transfer) : Nat → World → List Round → Prop
  | _, _, [] => True
  | ci, w, r :: rs => x.IsRound env ci w r ∧
      ∀ w', w.receiveAll env (r.deliveries env x) = some w' → AreRounds env x (ci + 1) w' rs

/-! ## The packets of a round -/

/-- All chunks below `ci` are done. -/
def DoneBelow (ci : Nat) (rx : CfdpReceiver) : Prop :=
  ∀ j : UInt32, j.toNat < ci → rx.state.isDone j = true

/-- What the receiver has made of the packets `P` of chunk `ci`; `out` is what it sent. -/
inductive Collected (x : Transfer) (ci : Nat) (P : Nat → Prop) (out : List Bytes) (rx : CfdpReceiver) : Prop
  | ended (ha : rx.transferActive = false) (hf : x.finalAck ∈ out)
  | done (ha : rx.transferActive = true) (hb : DoneBelow ci rx)
      (hd : rx.state.isDone (UInt32.ofNat ci) = true) (hack : x.chunkAck ci ∈ out ∨ ¬ P 0)
  | filling (ha : rx.transferActive = true) (hb : DoneBelow ci rx)
      (hopen : rx.state.isDone (UInt32.ofNat ci) = false)
      (hheld : ∀ pi, P pi → rx.Holds (UInt32.ofNat ci) pi)

theorem Collected.data {P : Nat → Prop} (h : x.Collected ci P out rx) (hok : rx.Ok) (hx : x.WellFormed)
    (hrec : rx.transferActive = true → x.Matches env rx.state) (hc : c < x.totalChunks)
    (hp : p < x.numPackets c) (hs : c = ci ∨ rx.state.isDone (UInt32.ofNat c) = true) :
    x.Collected ci (fun q => P q ∨ c = ci ∧ q = p) (out ++ (rx.replyData true (x.dataPdu c p)).2)
      (rx.replyData true (x.dataPdu c p)).1 := by
  have hin := hx.inFile hc hp
  cases h with
  | ended ha hf =>
    have hno : rx.acceptsData (x.dataPdu c p) = false := by simp [CfdpReceiver.acceptsData, ha]
    rw [CfdpReceiver.replyData, if_neg (by rw [hno]; exact Bool.false_ne_true)]
    exact .ended ha (List.mem_append_left _ hf)
  | done ha hb hd hack =>
    have hacc := CfdpReceiver.acceptsData_iff.mpr ((hrec ha).accepts hx ha hc hp)
    have hdone : rx.state.isDone (x.dataPdu c p).chunkIndex = true := by
      rcases hs with rfl | hs
      · exact hd
      · exact hs
    rw [CfdpReceiver.replyData_done hacc hdone]
    refine .done (by simpa using ha) (by simpa [DoneBelow] using hb) (by simpa using hd) ?_
    by_cases h0 : c = ci ∧ p = 0
    · obtain ⟨rfl, rfl⟩ := h0
      refine .inl (List.mem_append_right _ ?_)
      have h0 : (x.dataPdu c 0).packetIndex = 0 := rfl
      simp only [h0, if_true, CfdpReceiver.ack, (hrec ha).tid]
      exact List.mem_singleton_self _
    · rcases hack with hack | hack
      · exact .inl (List.mem_append_left _ hack)
      · refine .inr ?_
        rintro (h | ⟨h1, h2⟩)
        · exact hack h
        · exact h0 ⟨h1, h2.symm⟩
  | filling ha hb hopen hheld =>
    have hA := (hrec ha).accepts hx ha hc hp
    have hacc := CfdpReceiver.acceptsData_iff.mpr hA
    by_cases hci : c = ci
    · subst hci
      rcases CfdpReceiver.replyData_open hacc hopen with h | ⟨hack, h | h⟩
      · -- the packet is stored
        rw [h]
        refine .filling (by simpa using ha) (by simpa [DoneBelow] using hb) (by simpa using hopen) ?_
        rintro q hq
        have hslot : (x.dataPdu c p).packetIndex.toNat < (x.dataPdu c p).totalPackets.toNat := by
          rw [hin.toNat_packetIndex, hin.toNat_totalPackets]; exact hp
        refine (CfdpReceiver.holds_take hok.toSteady hA hslot rfl).mpr ?_
        rw [hin.toNat_packetIndex]
        rcases hq with hq | ⟨-, hq⟩
        · exact .inr (hheld q hq)
        · exact .inl hq
      · -- the packet completes the chunk
        have hlt : (UInt32.ofNat c).toNat < rx.state.chunkDone.length := by
          rw [(hrec ha).sane.flags]; exact hA.chunk
        have hdone (j : UInt32) : (rx.replyData true (x.dataPdu c p)).1.state.isDone j =
            (decide (j = UInt32.ofNat c) || rx.state.isDone j) := by
          rw [h]
          show ((rx.take (x.dataPdu c p)).state.markDone _).isDone j = _
          rw [CfdpReceiver.take_state]
          exact JournalState.isDone_markDone _ _ _ hlt
        refine .done ?_ (fun j hj => ?_) ?_ (.inl (List.mem_append_right _ ?_))
        · rw [h]
          show (rx.take (x.dataPdu c p)).transferActive = true
          rw [CfdpReceiver.take_transferActive]; exact ha
        · rw [hdone, hb j hj, Bool.or_true]
        · rw [hdone, decide_eq_true rfl, Bool.true_or]
        · unfold CfdpReceiver.ack at hack
          rw [(hrec ha).tid] at hack
          exact hack
      · rw [(hrec ha).tid] at h
        exact .ended h.1 (List.mem_append_right _ h.2)
    · -- a packet of a chunk that is done
      rw [CfdpReceiver.replyData_done hacc (hs.resolve_left hci)]
      refine .filling (by simpa using ha) (by simpa [DoneBelow] using hb) (by simpa using hopen) ?_
      rintro q (hq | ⟨h, -⟩)
      · simpa [CfdpReceiver.Holds] using hheld q hq
      · exact absurd h hci

/-- Chunk `ci` or the whole transfer has been acknowledged. -/
def Acked (x : Transfer) (ci : Nat) (out : List Bytes) : Prop := x.chunkAck ci ∈ out ∨ x.finalAck ∈ out

theorem Acked.append (h : x.Acked ci out) (out' : List Bytes) : x.Acked ci (out ++ out') :=
  h.imp (List.mem_append_left _) (List.mem_append_left _)

/-- What the rounds of all chunks below `ci` have come to. -/
inductive Reached (x : Transfer) (ci : Nat) (out : List Bytes) (rx : CfdpReceiver) : Prop
  | ended (ha : rx.transferActive = false) (hf : x.finalAck ∈ out)
  | active (ha : rx.transferActive = true) (hb : DoneBelow ci rx)
      (he : ci = x.totalChunks → rx.state.eofReceived = true)

/-- Before the first packet of a round. -/
theorem Reached.collected (h : x.Reached ci out rx) : x.Collected ci (fun _ => False) out rx := by
  cases h with
  | ended ha hf => exact .ended ha hf
  | active ha hb =>
    cases hd : rx.state.isDone (UInt32.ofNat ci) with
    | true => exact .done ha hb hd (.inr id)
    | false => exact .filling ha hb hd fun _ h => h.elim

theorem toNat_chunk (hx : x.WellFormed) (hci : ci < x.totalChunks) : (UInt32.ofNat ci).toNat = ci := by
  have htot := hx.totalChunks
  rw [UInt32.toNat_ofNat', Nat.mod_eq_of_lt (by omega)]

theorem Matches.not_all_held {k : UInt32} (hm : x.Matches env rx.state) (hok : rx.Ok)
    (hx : x.WellFormed) (ha : rx.transferActive = true) (hk : k.toNat < x.totalChunks) :
    ¬ ∀ pi, pi < x.numPackets k.toNat → rx.Holds k pi := by
  have hlt : k.toNat < rx.state.totalChunks.toNat := by
    rw [hm.totalChunks]
    exact hk
  have hnot := hok.not_all_held ha (hm.regular hx.toSizes) hlt
  rwa [hm.numPackets] at hnot

/-- The Eof that ends a round. -/
theorem Collected.eof {P : Nat → Prop} (h : x.Collected ci P out rx) (hok : rx.Ok) (hx : x.WellFormed)
    (hrec : rx.transferActive = true → x.Matches env rx.state) (hci : ci < x.totalChunks)
    (hall : ∀ pi, pi < x.numPackets ci → P pi) (checksum : UInt32) :
    x.Reached (ci + 1) (out ++ (rx.replyEof true ⟨x.tid, checksum⟩).2) (rx.replyEof true ⟨x.tid, checksum⟩).1 ∧
      x.Acked ci (out ++ (rx.replyEof true ⟨x.tid, checksum⟩).2) := by
  have hpos := hx.numPackets_pos hci
  cases h with
  | ended ha hf =>
    have hno : rx.acceptsEof ⟨x.tid, checksum⟩ = false := by simp [CfdpReceiver.acceptsEof, ha]
    unfold CfdpReceiver.replyEof
    rw [if_neg (by rw [hno]; exact Bool.false_ne_true)]
    exact ⟨.ended ha (List.mem_append_left _ hf), .inr (List.mem_append_left _ hf)⟩
  | done ha hb hd hack =>
    have hacc : rx.acceptsEof ⟨x.tid, checksum⟩ = true := by
      simp [CfdpReceiver.acceptsEof, ha, (hrec ha).tid]
    refine ⟨?_, .inl (List.mem_append_left _ (hack.resolve_right fun h => h (hall 0 hpos)))⟩
    rcases CfdpReceiver.replyEof_true hacc with h | h
    · rw [h]
      refine .active ha (fun j hj => ?_) fun _ => rfl
      rcases Nat.lt_succ_iff_lt_or_eq.mp hj with hj | hj
      · exact hb j hj
      · subst hj
        rwa [UInt32.ofNat_toNat] at hd
    · rw [(hrec ha).tid] at h
      exact .ended h.1 (List.mem_append_right _ h.2)
  | filling ha hb hopen hheld =>
    refine absurd (fun pi hpi => hheld pi (hall pi ?_)) ((hrec ha).not_all_held hok hx ha ?_)
    · rwa [toNat_chunk hx hci] at hpi
    · rw [toNat_chunk hx hci]; exact hci

/-! ## Sessions -/

theorem reply_of_decode {pdu : Pdu} {verified : Bool} (h : decodePdu raw = some pdu) :
    rx.reply env o verified raw = rx.replyPdu env o verified pdu := by
  rw [CfdpReceiver.reply, h]

/-- The packets of a round arrive. -/
theorem Collected.packets (hx : x.WellFormed) (hc : Crc.Composes env.crc32) {ss : List Sending}
    {P : Nat → Prop} (hl : x.Live env w) (h : x.Collected ci P out w.rx)
    (hss : x.Packets env ci w ss) :
    ∃ w' out', w.receiveAll env (ss.map (Sending.delivery x)) = some w' ∧ x.Live env w' ∧
      w'.sent = w.sent ++ out' ∧
      x.Collected ci (fun q => P q ∨ ∃ s ∈ ss, s.chunk = ci ∧ s.packet = q) (out ++ out') w'.rx := by
  induction ss generalizing w P out with
  | nil =>
    refine ⟨w, [], rfl, hl, (List.append_nil _).symm, ?_⟩
    simpa using h
  | cons s ss ih =>
    obtain ⟨ho, hc', hp, hs, hnext⟩ := hss
    have hraw : x.Emits env.crc32 (x.packetRaw s.chunk s.packet) := .data _ _ (hx.packet hc' hp)
    obtain ⟨w₁, hw₁, hl₁, hrx, hsent⟩ := hl.receives hx hc ho hraw
    rw [reply_of_decode (hx.decodePdu_packetRaw hc' hp)] at hrx hsent
    have h₁ := h.data hl.ok hx hl.inv.record hc' hp hs
    rw [show (w.rx.replyData true (x.dataPdu s.chunk s.packet)).1 = w₁.rx from hrx.symm] at h₁
    obtain ⟨w₂, out₂, hw₂, hl₂, hsent₂, h₂⟩ := ih hl₁ h₁ (hnext w₁ hw₁)
    refine ⟨w₂, (w.rx.replyData true (x.dataPdu s.chunk s.packet)).2 ++ out₂, ?_, hl₂, ?_, ?_⟩
    · rw [List.map_cons, World.receiveAll_cons, Sending.delivery, hw₁]; exact hw₂
    · rw [hsent₂, hsent, List.append_assoc]; rfl
    · rw [← List.append_assoc]
      refine cast (congrArg (fun P => x.Collected ci P _ _) ?_) h₂
      funext q
      simp only [List.mem_cons, exists_eq_or_imp, or_assoc, @eq_comm _ q]

/-- A round arrives. -/
theorem Reached.round (hx : x.WellFormed) (hc : Crc.Composes env.crc32) {r : Round} (hl : x.Live env w)
    (h : x.Reached ci out w.rx) (hci : ci < x.totalChunks) (hr : x.IsRound env ci w r) :
    ∃ w' out', w.receiveAll env (r.deliveries env x) = some w' ∧ x.Live env w' ∧
      w'.sent = w.sent ++ out' ∧ x.Reached (ci + 1) (out ++ out') w'.rx ∧
        x.Acked ci (out ++ out') := by
  obtain ⟨w₁, out₁, hw₁, hl₁, hsent₁, h₁⟩ := h.collected.packets hx hc hl hr.packets
  obtain ⟨w₂, hw₂, hl₂, hrx₂, hsent₂⟩ := hl₁.receives hx hc hr.eof .eof
  rw [reply_of_decode decodePdu_eofPdu] at hrx₂ hsent₂
  obtain ⟨h₂, hack⟩ := h₁.eof hl₁.ok hx hl₁.inv.record hci (fun pi hpi => .inr (hr.all pi hpi))
    (x.checksum env.crc32)
  refine ⟨w₂, out₁ ++ (w₁.rx.replyEof true ⟨x.tid, x.checksum env.crc32⟩).2, ?_, hl₂, ?_, ?_, ?_⟩
  · rw [Round.deliveries, World.receiveAll_append, hw₁, Option.bind_some, World.receiveAll_cons, hw₂]; rfl
  · rw [hsent₂, hsent₁, List.append_assoc]; rfl
  · rw [← List.append_assoc, hrx₂]; exact h₂
  · rw [← List.append_assoc]; exact hack

/-- Rounds arrive, one after the other. -/
theorem Reached.rounds (hx : x.WellFormed) (hc : Crc.Composes env.crc32) {rs : List Round}
    (hl : x.Live env w) (h : x.Reached ci out w.rx) (hrs : x.AreRounds env ci w rs)
    (hlen : ci + rs.length ≤ x.totalChunks) :
    ∃ w' out', w.receiveAll env (rs.flatMap (Round.deliveries env x)) = some w' ∧ x.Live env w' ∧
      w'.sent = w.sent ++ out' ∧ x.Reached (ci + rs.length) (out ++ out') w'.rx ∧
      ∀ i, i < rs.length → x.Acked (ci + i) (out ++ out') := by
  induction rs generalizing w ci out with
  | nil =>
    refine ⟨w, [], rfl, hl, (List.append_nil _).symm, ?_, fun i hi => absurd hi (Nat.not_lt_zero i)⟩
    simpa using h
  | cons r rs ih =>
    obtain ⟨hr, hnext⟩ := hrs
    rw [List.length_cons] at hlen
    obtain ⟨w₁, out₁, hw₁, hl₁, hsent₁, h₁, hack⟩ := h.round hx hc hl (by omega) hr
    obtain ⟨w₂, out₂, hw₂, hl₂, hsent₂, h₂, hacks⟩ := ih hl₁ h₁ (hnext w₁ hw₁) (by omega)
    rw [List.append_assoc] at h₂ hacks
    refine ⟨w₂, out₁ ++ out₂, ?_, hl₂, ?_, ?_, fun i hi => ?_⟩
    · rw [List.flatMap_cons, World.receiveAll_append, hw₁]; exact hw₂
    · rw [hsent₂, hsent₁, List.append_assoc]
    · rw [List.length_cons, show ci + (rs.length + 1) = ci + 1 + rs.length by omega]; exact h₂
    · cases i with
      | zero => rw [← List.append_assoc]; exact hack.append out₂
      | succ i =>
        rw [List.length_cons] at hi
        rw [show ci + (i + 1) = ci + 1 + i by omega]
        exact hacks i (by omega)

/-- All rounds together end the transfer. -/
theorem Reached.final (h : x.Reached x.totalChunks out w.rx) (hl : x.Live env w) :
    x.finalAck ∈ out := by
  cases h with
  | ended _ hf => exact hf
  | active ha hb he =>
    refine absurd ((JournalState.computeMissingChunks_eq_nil _).mpr fun j hj => hb j ?_)
      (hl.ok.missing ha (he rfl))
    rw [← (hl.inv.record ha).totalChunks]
    exact UInt32.lt_iff_toNat_lt.mp hj

/-- A Metadata of transaction `t` begins a transfer: it is not the active one, nor the one finished last. -/
structure Begins (t : UInt32) (rx : CfdpReceiver) : Prop where
  active : rx.transferActive = true → rx.state.transactionId ≠ t
  idle : rx.transferActive = false → rx.lastAckedId ≠ t

theorem Begins.accepts (h : Begins x.tid rx) (hx : x.WellFormed) (env : Env) :
    ∃ name, x.Packable name ∧
      decodePdu (x.metadataRaw env.crc32) = some (.metadata (x.metadata env.crc32 name)) ∧
      rx.accepts (x.metadata env.crc32 name) = true := by
  obtain ⟨name, hp, hsane⟩ := hx.packable env
  obtain ⟨name', hp', hd⟩ := decodePdu_metadataPdu (hx.metadataPdu env)
  obtain rfl : name' = name := Option.some.inj (hp'.ascii.symm.trans hp.ascii)
  refine ⟨name', hp, hd, ?_⟩
  have htid : (x.metadata env.crc32 name').transactionId = x.tid := rfl
  rw [CfdpReceiver.accepts, hsane, htid]
  cases ha : rx.transferActive with
  | true => simpa using h.active ha
  | false => simpa using h.idle ha

/-- A Metadata starts the transfer, or finds it active. -/
theorem Live.opens (hl : x.Live env w) (hx : x.WellFormed) (hc : Crc.Composes env.crc32)
    (ho : o.Smooth) (hs : w.rx.transferActive = true ∨ w.rx.lastAckedId ≠ x.tid) :
    ∃ w', w.receive env (x.metadataRaw env.crc32, o) = some w' ∧ x.Live env w' ∧ w'.sent = w.sent ∧
      w'.rx.transferActive = true := by
  cases ha : w.rx.transferActive with
  | true =>
    obtain ⟨name, hp, hd⟩ := decodePdu_metadataPdu (hx.metadataPdu env)
    obtain ⟨w', hw', hl', hrx, hsent⟩ := hl.receives hx hc ho (.metadata (hx.metadataPdu env))
    rw [reply_of_decode hd] at hrx hsent
    rw [show w.rx.replyPdu env o true (.metadata (x.metadata env.crc32 name)) = (w.rx, []) from
      CfdpReceiver.replyMetadata_again ha (hl.inv.record ha).tid] at hrx hsent
    exact ⟨w', hw', hl', by rw [hsent, List.append_nil], by rw [hrx]; exact ha⟩
  | false =>
    have hb : Begins x.tid w.rx := by
      refine ⟨fun h => ?_, fun _ => hs.resolve_left (by rw [ha]; exact Bool.false_ne_true)⟩
      rw [ha] at h
      cases h
    obtain ⟨name, -, hd, hacc⟩ := hb.accepts hx env
    obtain ⟨w', hw', hl', hrx, hsent⟩ := hl.receives hx hc ho (.metadata (hx.metadataPdu env))
    rw [reply_of_decode hd] at hrx hsent
    have hrep := CfdpReceiver.accepts_repeatsAck hacc
    simp only [CfdpReceiver.replyPdu, CfdpReceiver.replyMetadata, hrep, hacc, Bool.false_eq_true, if_false,
      if_true, List.append_nil] at hrx hsent
    exact ⟨w', hw', hl', hsent, by rw [hrx]; rfl⟩

/-- The answer to the query of an active transfer. -/
theorem Live.queried (hl : x.Live env w) (hx : x.WellFormed) (hc : Crc.Composes env.crc32)
    (ho : o.Smooth) (ha : w.rx.transferActive = true) :
    ∃ w' N, w.receive env (x.queryPdu, o) = some w' ∧ x.Live env w' ∧
      w'.sent = w.sent ++ [ResumeInfoPdu.raw ⟨x.tid, N⟩] ∧ w'.rx = w.rx ∧
      (N = uint32Max ∧ w.rx.state.computeMissingChunks = [] ∨
        N ≠ uint32Max ∧ N.toNat < x.totalChunks ∧ DoneBelow N.toNat w.rx) := by
  obtain ⟨w', hw', hl', hrx, hsent⟩ := hl.receives hx hc ho .query
  rw [reply_of_decode decodePdu_queryPdu] at hrx hsent
  have hrec := hl.inv.record ha
  refine ⟨w', firstMissingChunk w.rx x.tid, hw', hl', hsent, hrx, ?_⟩
  have hact : (!w.rx.transferActive || w.rx.state.transactionId != x.tid) = false := by
    simp [ha, hrec.tid]
  unfold firstMissingChunk
  rw [if_neg (by rw [hact]; exact Bool.false_ne_true)]
  cases hm : w.rx.state.computeMissingChunks with
  | nil => exact .inl ⟨rfl, rfl⟩
  | cons cr rs =>
    obtain ⟨h1, -, h3⟩ := JournalState.computeMissingChunks_head hm
    have hlt := UInt32.lt_iff_toNat_lt.mp h1
    exact .inr ⟨CfdpReceiver.ne_uint32Max hlt hrec.sane.totalChunks.2,
      by rw [← hrec.totalChunks]; exact hlt,
      fun j hj => h3 j (UInt32.lt_iff_toNat_lt.mpr hj)⟩

/-- An Eof ends a transfer of which every chunk is done. -/
theorem Live.ends (hl : x.Live env w) (hx : x.WellFormed) (hc : Crc.Composes env.crc32) (ho : o.Smooth)
    (ha : w.rx.transferActive = true) (hm : w.rx.state.computeMissingChunks = []) :
    ∃ w' out, w.receive env (x.eofPdu env.crc32, o) = some w' ∧ x.Live env w' ∧
      w'.sent = w.sent ++ out ∧
      x.finalAck ∈ out := by
  obtain ⟨w', hw', hl', hrx, hsent⟩ := hl.receives hx hc ho .eof
  rw [reply_of_decode decodePdu_eofPdu] at hrx hsent
  have hacc : w.rx.acceptsEof ⟨x.tid, x.checksum env.crc32⟩ = true := by
    simp [CfdpReceiver.acceptsEof, ha, (hl.inv.record ha).tid]
  refine ⟨w', _, hw', hl', hsent, ?_⟩
  rcases CfdpReceiver.replyEof_true hacc with h | h
  · have hrx' : w'.rx = { w.rx with state := w.rx.state.markEof } := hrx.trans h
    refine absurd ?_ (hl'.ok.missing (by rw [hrx']; exact ha) (by rw [hrx']; rfl))
    rw [hrx']; exact hm
  · rw [(hl.inv.record ha).tid] at h
    exact h.2

/-- The final ACK has been sent and the destination file is the source file. -/
def Completed (env : Env) (x : Transfer) (w : World) (out : List Bytes) : Prop :=
  x.finalAck ∈ out ∧ w.disk.files (x.path env) = some x.file

theorem Live.completed {pre : List Bytes} (hl : x.Live env w) (hsent : w.sent = pre ++ out)
    (hf : x.finalAck ∈ out) : x.Completed env w out := by
  refine ⟨hf, hl.inv.final _ (isFinalAck_raw x.tid) ?_⟩
  have hmem : x.finalAck ∈ w.sent := by rw [hsent]; exact List.mem_append_right _ hf
  obtain ⟨e, he, hpdu⟩ := List.mem_filterMap.mp hmem
  cases e with
  | sent pdu => cases hpdu; exact he
  | journal u => cases hpdu

variable {n : Node} {hist : List Moment} {o₁ o₂ : Oracle}

/-- **A session without losses completes the transfer**, whatever the receiver has been
through: after the round of each chunk that chunk or the transfer has been acknowledged in
this session, and after the last one the transfer has been, with the file in place. -/
theorem session_completes (hx : x.WellFormed) (hc : Crc.Composes env.crc32) (hn : n.Fresh)
    (hd : x.Fits (n.disk.files (x.path env))) (h : Node.Run env (x.Surroundings env) n hist (.up w))
    (hs : w.rx.transferActive = true ∨ w.rx.lastAckedId ≠ x.tid) (ho₁ : o₁.Smooth) (ho₂ : o₂.Smooth) :
    ∃ w₀ N, w.receiveAll env [(x.metadataRaw env.crc32, o₁), (x.queryPdu, o₂)] = some w₀ ∧
      w₀.sent = w.sent ++ [ResumeInfoPdu.raw ⟨x.tid, N⟩] ∧
      (N = uint32Max → ∀ o, o.Smooth → ∃ w' out, w₀.receive env (x.eofPdu env.crc32, o) = some w' ∧
        w'.sent = w₀.sent ++ out ∧ x.Completed env w' out) ∧
      (N ≠ uint32Max → N.toNat < x.totalChunks ∧ ∀ rs, N.toNat + rs.length ≤ x.totalChunks →
        x.AreRounds env N.toNat w₀ rs →
        ∃ w' out, w₀.receiveAll env (rs.flatMap (Round.deliveries env x)) = some w' ∧
          w'.sent = w₀.sent ++ out ∧ (∀ i, i < rs.length → x.Acked (N.toNat + i) out) ∧
          (N.toNat + rs.length = x.totalChunks → x.Completed env w' out)) := by
  have hl : x.Live env w := ⟨(Run.nodeInv hx.tid hn hd h).1, (Node.Run.ok hn h).1⟩
  obtain ⟨w₁, hw₁, hl₁, hsent₁, ha₁⟩ := hl.opens hx hc ho₁ hs
  obtain ⟨w₀, N, hw₀, hl₀, hsent₀, hrx₀, hN⟩ := hl₁.queried hx hc ho₂ ha₁
  rw [← hrx₀] at ha₁ hN
  refine ⟨w₀, N, ?_, by rw [hsent₀, hsent₁], fun hmax o ho => ?_, fun hne => ?_⟩
  · rw [World.receiveAll_cons, hw₁, Option.bind_some, World.receiveAll_cons, hw₀]; rfl
  · obtain ⟨-, hm⟩ := hN.resolve_right fun h => h.1 hmax
    obtain ⟨w', out, hw', hl', hsent', hf⟩ := hl₀.ends hx hc ho ha₁ hm
    exact ⟨w', out, hw', hsent', hl'.completed hsent' hf⟩
  · obtain ⟨-, hlt, hb⟩ := hN.resolve_left fun h => hne h.1
    refine ⟨hlt, fun rs hlen hrs => ?_⟩
    have h₀ : x.Reached N.toNat [] w₀.rx := .active ha₁ hb fun he => absurd he hlt.ne
    obtain ⟨w', out, hw', hl', hsent', hr, hacks⟩ := h₀.rounds hx hc hl₀ hrs hlen
    refine ⟨w', out, hw', hsent', hacks, fun hall => hl'.completed hsent' ?_⟩
    rw [hall] at hr
    exact hr.final hl'

/-- Killed when the second chunk is done; half of the first one arrives after the restart. -/
def halfway : List Action :=
  [powerOn, deliver (five.metadataRaw sampleEnv.crc32), deliver (five.packetRaw 1 0), .crash,
    powerOn, deliver (five.packetRaw 0 1)]

def bothRounds : List Round :=
  [⟨[⟨0, 0, noFaults⟩, ⟨0, 1, noFaults⟩], noFaults⟩, ⟨[⟨1, 0, noFaults⟩], noFaults⟩]

theorem surroundings_halfway {n : Node} {a : Action} (ha : a ∈ halfway) :
    five.Surroundings sampleEnv n a := by
  simp only [halfway, List.mem_cons, List.not_mem_nil, or_false] at ha
  rcases ha with rfl | rfl | rfl | rfl | rfl | rfl
  · exact smooth_noFaults
  · exact ⟨emits_metadataRaw (by decide +kernel), smooth_noFaults⟩
  · exact ⟨emits_packetRaw (by decide +kernel), smooth_noFaults⟩
  · trivial
  · exact smooth_noFaults
  · exact ⟨emits_packetRaw (by decide +kernel), smooth_noFaults⟩

theorem areRounds_five (w : World) : five.AreRounds sampleEnv 0 w bothRounds := by
  have hsent (ci pi : Nat) (hc : ci < 2) (hp : pi < five.numPackets ci) (w : World) (ss : List Sending)
      (h : ∀ w', five.Packets sampleEnv ci w' ss) :
      five.Packets sampleEnv ci w (⟨ci, pi, noFaults⟩ :: ss) :=
    ⟨smooth_noFaults, hc, hp, .inl rfl, fun w' _ => h w'⟩
  refine ⟨⟨hsent 0 0 (by decide) (by decide) w _ fun w' => hsent 0 1 (by decide) (by decide) w' _
    fun _ => trivial, fun pi hpi => ?_, smooth_noFaults⟩, fun w' _ =>
    ⟨⟨hsent 1 0 (by decide) (by decide) w' _ fun _ => trivial, fun pi hpi => ?_, smooth_noFaults⟩,
      fun _ _ => trivial⟩⟩
  · have hpi' : pi < 2 := hpi
    obtain rfl | rfl : pi = 0 ∨ pi = 1 := by omega
    · exact ⟨⟨0, 0, noFaults⟩, by simp, rfl, rfl⟩
    · exact ⟨⟨0, 1, noFaults⟩, by simp, rfl, rfl⟩
  · have hpi' : pi < 1 := hpi
    obtain rfl : pi = 0 := by omega
    exact ⟨⟨1, 0, noFaults⟩, by simp, rfl, rfl⟩

/-- Two chunks, one of them done and the other half there when the session begins. -/
theorem session_completes_small : ∃ (hist : List Moment) (w w₀ w' : World) (out : List Bytes),
    Node.Run sampleEnv (five.Surroundings sampleEnv) unusedNode hist (.up w) ∧
    w.rx.state.chunkDone = [false, true] ∧ w.rx.packetList.validCount = 1 ∧
    w.receiveAll sampleEnv [(five.metadataRaw sampleEnv.crc32, noFaults), (five.queryPdu, noFaults)] =
      some w₀ ∧
    w₀.receiveAll sampleEnv (bothRounds.flatMap (Round.deliveries sampleEnv five)) = some w' ∧
    w'.sent = w₀.sent ++ out ∧ five.Completed sampleEnv w' out := by
  have hrun : (sampleRun halfway).any (fun r => r.2.world?.any fun w =>
      w.rx.transferActive && decide (w.rx.state.chunkDone = [false, true]) &&
      w.rx.packetList.validCount == 1 &&
        (w.receiveAll sampleEnv [(five.metadataRaw sampleEnv.crc32, noFaults),
        (five.queryPdu, noFaults)]).any fun w₀ =>
          decide (w₀.sent = w.sent ++ [ResumeInfoPdu.raw ⟨1, 0⟩])) = true := by
    decide +kernel
  simp only [Option.any_eq_true, Node.world?_eq_some, Bool.and_eq_true, beq_iff_eq, decide_eq_true_eq,
    Prod.exists] at hrun
  obtain ⟨hist, n, hr, w, rfl, ⟨⟨hact, hdone⟩, hvalid⟩, w₀, hw₀, hinfo⟩ := hrun
  have hok : Node.Run sampleEnv (five.Surroundings sampleEnv) unusedNode hist (.up w) :=
    Machine.exec_run hr fun a ha s _ _ => surroundings_halfway ha
  obtain ⟨w₁, N, hw₁, hsent, -, hrounds⟩ := session_completes wellFormed_five
    Crc.composes_zlibCrc32 unusedNode_fresh (fun g hg => by cases hg) hok (.inl hact) smooth_noFaults
    smooth_noFaults
  rw [hw₀] at hw₁; cases hw₁
  have hinfo' := hsent.symm.trans hinfo
  obtain rfl : N = 0 := by
    simp only [List.append_cancel_left_eq, ResumeInfoPdu.raw, List.cons.injEq, and_true,
      true_and] at hinfo'
    exact LittleEndian.le32_inj (List.append_cancel_left hinfo')
  obtain ⟨-, hall⟩ := hrounds (by decide)
  obtain ⟨w', out, hw', hsent', -, hcompleted⟩ := hall bothRounds (by decide) (areRounds_five w₀)
  exact ⟨hist, w, w₀, w', out, hok, hdone, hvalid, hw₀, hw', hsent', hcompleted (by decide)⟩

end Transfer

end Cfdp
