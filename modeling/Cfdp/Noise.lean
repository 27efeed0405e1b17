import Cfdp.Bursts
import Cfdp.Delivery
import Cfdp.Framing
import Cfdp.Overwrite

/-!
# A noisy line

Safety does not need that every PDU arrives as it was sent. It needs that the receiver starts
no other transfer and stores no packet in a slot it does not belong to (`Tolerates`): whatever
else the bytes of the line are, `run_noisy` holds.

What `Transport.send` makes of a PDU of the sender is tolerated, wherever it hits a packet
outside the bytes that say which packet it is, and wherever it hits an Eof or a query
(`tolerates_written`). So is a burst in the data of a packet (`tolerates_damaged`). A session
without losses after all this completes the transfer (`written_recovers`).
-/

namespace Cfdp

open Crash Prog Machine LittleEndian ByteStream

namespace Transport

/-- `raw` is what `send` puts on the line for `pdu`. -/
def Writes (d : Dice) (pdu raw : Bytes) : Prop :=
  d.lost = false ∧ ∀ s, send d pdu s = some (s.write (frame raw))

/-- The byte `send` changes, if it corrupts a PDU. -/
def Dice.hit (d : Dice) (pdu : Bytes) : Nat := d.pos % pdu.length

theorem frame_inj {len : UInt32} {pdu raw : Bytes} (h : le32 len ++ pdu = frame raw) : raw = pdu :=
  (le32_append_inj h).2.symm

/-- The PDU itself, or the PDU with one byte inverted. -/
theorem Writes.eq {d : Dice} {pdu raw : Bytes} (h : Writes d pdu raw) :
    (d.corrupted = false ∧ raw = pdu) ∨
      (d.corrupted = true ∧ d.hit pdu < pdu.length ∧ raw = corrupt pdu (d.hit pdu) 0xFF) := by
  obtain ⟨hlost, hsend⟩ := h
  have h0 := hsend ⟨[], fun _ => 0⟩
  unfold send at h0
  rw [hlost, if_neg Bool.false_ne_true] at h0
  split at h0
  · cases h0
  next hne =>
  obtain ⟨len, hlen, hw⟩ := Option.map_eq_some_iff.mp h0
  obtain ⟨-, -, rfl⟩ := packU32_eq_some hlen
  have hbytes := frame_inj (congrArg ByteStream.pending hw)
  cases hc : d.corrupted with
  | false =>
    rw [hc, if_neg Bool.false_ne_true] at hbytes
    exact .inl ⟨rfl, hbytes⟩
  | true =>
    rw [hc, if_pos rfl, List.modify_eq_set] at hbytes
    have hpdu : pdu ≠ [] := fun hp => hne ⟨hc, hp⟩
    exact .inr ⟨rfl, Nat.mod_lt _ (List.length_pos_of_ne_nil hpdu), hbytes⟩

end Transport

namespace Transfer

variable {env : Env} {x : Transfer} {rest : Bytes} {since : Nat} {o : Oracle} {rx : CfdpReceiver}
  {w : World} {raw : Bytes}

/-- The receiver starts no transfer by `raw` but `x`, repeats no final ACK but that of `x`, and
stores no packet that is not the one of the source file for its slot. -/
structure Tolerates (env : Env) (x : Transfer) (rx : CfdpReceiver) (raw : Bytes) : Prop where
  starts : ∀ m, decodePdu raw = some (.metadata m) → rx.accepts m = true →
    ∃ name, x.Packable name ∧ m = x.metadata env.crc32 name
  repeats : ∀ m, decodePdu raw = some (.metadata m) → rx.repeatsAck m = true →
    m.transactionId = x.tid
  stores : ∀ d, decodePdu raw = some (.data d) → rx.acceptsData d = true →
    rx.state.isDone d.chunkIndex = false → x.Genuine d

/-- A tolerated PDU keeps the invariant, at every moment. -/
theorem Held.tolerates (h : Held env x rest since w) (hx : x.WellFormed) (hd : x.Detects env rest)
    (ho : o.Smooth) (ht : x.Tolerates env w.rx raw) :
    wp (Cfdp.onPduReceived env o raw) (Held env x rest since) (fun _ => Held env x rest since)
      (fun _ _ => False) w := by
  rw [Cfdp.onPduReceived]
  cases hdec : decodePdu raw with
  | none => exact (wp_pure ()).mpr h
  | some pdu =>
    cases pdu with
    | metadata m => exact h.handleMetadata (ht.starts m hdec) (ht.repeats m hdec)
    | data d =>
      refine h.handleData hd ho fun hacc hopen => ⟨ht.stores d hdec hacc hopen, ?_⟩
      have ha := CfdpReceiver.acceptsData_iff.mp hacc
      have hrec := h.record ha.active
      have hlt := ha.chunk
      rw [hrec.totalChunks] at hlt
      rw [ha.packets, hrec.expectedPkts hx hlt]
    | eof e => exact h.handleEof hd ho e
    | resumeQuery q =>
      have hsend := h.send
        (ResumeInfoPdu.raw ⟨q.transactionId, firstMissingChunk w.rx q.transactionId⟩)
        fun hf => absurd hf.1 (not_isAck_info _)
      exact wp_handleResumeQuery.mpr ⟨hsend, hsend⟩

/-! ## What is tolerated -/

/-- The PDUs of the transfer. -/
theorem tolerates_emits (hx : x.WellFormed) (rx : CfdpReceiver) (h : x.Emits env.crc32 raw) :
    x.Tolerates env rx raw where
  starts _ hd _ := h.metadata_eq hd
  repeats m hd _ := by
    obtain ⟨name, -, rfl⟩ := h.metadata_eq hd
    rfl
  stores d hd _ _ := by
    obtain ⟨c, p, hin, rfl⟩ := h.data_eq hx hd
    exact hin.genuine

/-- Bytes whose type is none of Metadata and Data. -/
theorem tolerates_type (rx : CfdpReceiver) (hm : raw.head? ≠ some PduType.metadata.code)
    (hd : raw.head? ≠ some PduType.data.code) : x.Tolerates env rx raw where
  starts _ h _ := absurd (decodePdu_type h) hm
  repeats _ h _ := absurd (decodePdu_type h) hm
  stores _ h _ _ := absurd (decodePdu_type h) hd

/-- A packet with a burst of at most eight bits in its data. -/
theorem tolerates_damaged {ci pi : Nat} {pkt : Bytes} (rx : CfdpReceiver)
    (h : x.Damaged ci pi pkt raw) : x.Tolerates env rx raw where
  starts m hm _ := by
    rcases h.decode with hn | ⟨d, hd⟩
    · rw [hn] at hm
      cases hm
    · rw [hd] at hm
      cases hm
  repeats m hm _ := by
    rcases h.decode with hn | ⟨d, hd⟩
    · rw [hn] at hm
      cases hm
    · rw [hd] at hm
      cases hm
  stores d hd _ _ := fun hcrc _ => by
    have hfails := h.crc8_fails hd
    rw [hcrc, beq_self_eq_true] at hfails
    cases hfails

theorem head?_corrupt (t : UInt8) (payload : Bytes) (i : Nat) (v : UInt8) :
    (corrupt (t :: payload) i v).head? = some (if i = 0 then t ^^^ v else t) := by
  cases i with
  | zero => rfl
  | succ i => rfl

/-- A packet with one byte inverted, outside the bytes that say which packet it is. -/
theorem tolerates_corrupt_data {ci pi i : Nat} {pkt : Bytes} (rx : CfdpReceiver)
    (hpkt : x.packet ci pi = some pkt) (hlt : i < pkt.length) (hi : ¬ PlaceByte i) :
    x.Tolerates env rx (corrupt pkt i 0xFF) := by
  -- with its type inverted it is no PDU
  have hnone : (corrupt pkt i 0xFF).head? ≠ some PduType.metadata.code := by
    obtain ⟨-, rfl⟩ := packet_eq hpkt
    rw [head?_corrupt]
    split <;> decide
  refine ⟨fun m hm _ => absurd (decodePdu_type hm) hnone,
    fun m hm _ => absurd (decodePdu_type hm) hnone, fun d hd _ _ hcrc _ => ?_⟩
  exact corrupt_data hpkt (by decide) hlt hi hd hcrc

/-- A corruption that spares the Metadata, and in a packet the bytes that say which packet it
is. -/
def Spares (env : Env) (x : Transfer) (d : Transport.Dice) (pdu : Bytes) : Prop :=
  d.corrupted = true → x.metadataPdu env.crc32 ≠ some pdu ∧
    ∀ ci pi, x.packet ci pi = some pdu → ¬ PlaceByte (d.hit pdu)

/-- What the sender's `Transport` puts on the line. -/
theorem tolerates_written {d : Transport.Dice} {pdu : Bytes} (hx : x.WellFormed) (rx : CfdpReceiver)
    (hpdu : x.Emits env.crc32 pdu) (hd : x.Spares env d pdu) (hw : Transport.Writes d pdu raw) :
    x.Tolerates env rx raw := by
  rcases hw.eq with ⟨-, rfl⟩ | ⟨hc, hlt, rfl⟩
  · exact tolerates_emits hx rx hpdu
  obtain ⟨hmeta, hplace⟩ := hd hc
  cases hpdu with
  | metadata hm => exact absurd hm hmeta
  | data ci pi hpkt => exact tolerates_corrupt_data rx hpkt hlt (hplace ci pi hpkt)
  | eof =>
    unfold eofPdu
    refine tolerates_type rx ?_ ?_ <;> rw [head?_corrupt] <;> split <;> decide
  | query =>
    unfold queryPdu
    refine tolerates_type rx ?_ ?_ <;> rw [head?_corrupt] <;> split <;> decide

/-! ## Runs -/

/-- Every PDU is tolerated in the state it arrives in, and no call fails. -/
def Noisy (env : Env) (x : Transfer) : Node → Action → Prop
  | .up w, .recv raw o _ => x.Tolerates env w.rx raw ∧ o.Smooth
  | _, a => a.Within (fun _ => True) Oracle.Smooth

theorem NodeInv.noisy {n n' : Node} {a : Action} {ms : List Moment} (hx : x.WellFormed)
    (h : NodeInv env x since n) (ha : x.Noisy env n a) (hs : Node.step env n a = some (ms, n')) :
    NodeInv env x since n' ∧ ∀ w, .passed w ∈ ms → Inv env x since w := by
  refine Node.inv_step (fun w raw o cut hw ha => ?_) (fun w hw => hw.toStored)
    (fun disk log garbage o cut hd ha => ?_) h ha hs
  · exact wp_mono ((inv_iff.mp hw).tolerates hx (.inl rfl) ha.2 ha.1)
      (fun _ hk => ⟨inv_iff.mpr hk, (inv_iff.mpr hk).toStored⟩)
      (fun _ _ hk => ⟨inv_iff.mpr hk, inv_iff.mpr hk⟩) fun _ _ hf => hf.elim
  · exact wp_mono (Stored.onBoot hd ha hx.tid garbage) (fun _ hk => ⟨hk, hk.toStored⟩)
      (fun _ _ hk => ⟨hk, hk⟩) fun _ _ hf => hf.elim

theorem Run.noisyInv {n n' : Node} {hist : List Moment} (hx : x.WellFormed) (hn : n.Fresh)
    (hd : x.Fits (n.disk.files (x.path env))) (h : Node.Run env (x.Noisy env) n hist n') :
    NodeInv env x 0 n' ∧ ∀ w, .passed w ∈ hist → Inv env x 0 w := by
  have hinv := h.inv_moments (I := NodeInv env x 0) (J := fun m => ∀ w, m = .passed w → Inv env x 0 w)
    (stored_fresh hn hd) ?_
  · exact ⟨hinv.1, fun w hw => hinv.2 _ hw w rfl⟩
  · intro n a ms n' hi ha hs
    obtain ⟨h1, h2⟩ := hi.noisy hx ha hs
    exact ⟨h1, fun m hm w hw => h2 w (hw ▸ hm)⟩

/-- What is marked done is in the destination file, and after a final ACK all of it is. -/
def Safe (env : Env) (x : Transfer) (disk : Disk) (s : JournalState) (log : List Event) : Prop :=
  x.DoneStored env disk s ∧ x.AckedStored env disk log

theorem Inv.safe (h : Inv env x 0 w) : x.Safe env w.disk w.rx.state w.log :=
  ⟨h.toStored.doneStored h.marks, h.toStored.ackedStored⟩

theorem NodeInv.safe {n : Node} (h : NodeInv env x 0 n) : x.Safe env n.disk .blank n.log := by
  have hs : Stored env x 0 n.disk n.log := by
    cases n with
    | up w => exact h.toStored
    | down disk log => exact h
  refine ⟨hs.doneStored fun ci hd => ?_, hs.ackedStored⟩
  simp [JournalState.isDone, JournalState.blank] at hd

/-- **Safety does not depend on what else is on the line.** In every run over PDUs that are
tolerated where they arrive, lost, duplicated or reordered as they may be, and wherever the
receiver crashes: chunks marked done are in the destination file, and after a final ACK the
file is complete. -/
theorem run_noisy {n n' : Node} {hist : List Moment} (hx : x.WellFormed) (hn : n.Fresh)
    (hd : x.Fits (n.disk.files (x.path env))) (h : Node.Run env (x.Noisy env) n hist n') :
    (∀ w, .passed w ∈ hist → x.Safe env w.disk w.rx.state w.log) ∧
      x.Safe env n'.disk .blank n'.log := by
  obtain ⟨hn', hw⟩ := Run.noisyInv hx hn hd h
  exact ⟨fun w hm => (hw w hm).safe, hn'.safe⟩

/-- What the sender's `Transport` makes of PDUs of `x`, in any order and number; no call fails. -/
def Written (env : Env) (x : Transfer) (_ : Node) (a : Action) : Prop :=
  a.Within (fun raw => ∃ d pdu, x.Emits env.crc32 pdu ∧ x.Spares env d pdu ∧
    Transport.Writes d pdu raw) Oracle.Smooth

theorem Written.noisy (hx : x.WellFormed) {n : Node} {a : Action} (h : x.Written env n a) :
    x.Noisy env n a := by
  cases a with
  | recv raw o cut =>
    obtain ⟨⟨d, pdu, hpdu, hd, hw⟩, ho⟩ := h
    cases n with
    | up w => exact ⟨tolerates_written hx w.rx hpdu hd hw, ho⟩
    | down disk log => exact ⟨trivial, ho⟩
  | crash => cases n <;> trivial
  | boot garbage o cut =>
    cases n with
    | up w => exact h
    | down disk log => exact h

/-- **The sender's line is harmless, and what it does is made good.** `Transport.send` loses
PDUs and inverts bytes; as long as it spares the Metadata and the bytes that say which packet
a packet is, every run is safe, and from wherever it has led, a session of which nothing is
lost completes the transfer. -/
theorem written_recovers {n n' : Node} {hist : List Moment} (hx : x.WellFormed)
    (hc : Crc.Composes env.crc32) (hn : n.Fresh) (hd : x.Fits (n.disk.files (x.path env)))
    (h : Node.Run env (x.Written env) n hist n') :
    ((∀ w, .passed w ∈ hist → x.Safe env w.disk w.rx.state w.log) ∧
        x.Safe env n'.disk .blank n'.log) ∧
      ∀ w, n' = .up w → (w.rx.transferActive = true ∨ w.rx.lastAckedId ≠ x.tid) →
        ∀ o : Oracle, o.Smooth →
        ∃ w₀ N, w.receiveAll env [(x.metadataRaw env.crc32, o), (x.queryPdu, o)] = some w₀ ∧
          w₀.sent = w.sent ++ [ResumeInfoPdu.raw ⟨x.tid, N⟩] ∧
          ∃ w' out, w₀.receiveAll env ((x.remaining env.crc32 N).map fun raw => (raw, o)) = some w' ∧
            w'.sent = w₀.sent ++ out ∧ x.Completed env w' out := by
  have hnoisy : Node.Run env (x.Noisy env) n hist n' := h.mono fun _ _ ha => ha.noisy hx
  obtain ⟨hn', hw⟩ := Run.noisyInv hx hn hd hnoisy
  refine ⟨⟨fun w hm => (hw w hm).safe, hn'.safe⟩, ?_⟩
  rintro w rfl hs o ho
  have hl : x.Live env w := ⟨hn', (Node.Run.ok hn hnoisy).1⟩
  exact hl.session hx hc ho hs

/-! ## A file of two bytes -/

theorem wellFormed_onePair : onePair.WellFormed where
  tid := (by decide : (1 : UInt32) ≠ 0)
  file := List.cons_ne_nil _ _
  chunkSize := Nat.two_pos
  packetSize := ⟨Nat.one_pos, (by decide : 1 ≤ defaultPacketSize)⟩
  sizes := (by decide : 2 + 1 ≤ 2 ^ 32)
  totalChunks := (by decide : onePair.totalChunks ≤ 2 ^ 20)
  name := ⟨[0x61], (by decide : asciiEncode ['a'] = _), by decide⟩

theorem wellFormed_pairPacket : pairPacket.WellFormed where
  tid := (by decide : (1 : UInt32) ≠ 0)
  file := List.cons_ne_nil _ _
  chunkSize := Nat.two_pos
  packetSize := ⟨Nat.two_pos, (by decide : 2 ≤ defaultPacketSize)⟩
  sizes := (by decide : 2 + 2 ≤ 2 ^ 32)
  totalChunks := (by decide : pairPacket.totalChunks ≤ 2 ^ 20)
  name := ⟨[0x61], (by decide : asciiEncode ['a'] = _), by decide⟩

/-- The packet arrives damaged by a burst, and again as it was sent. -/
theorem run_noisy_pair : ∃ hist n',
    Node.Run sampleEnv (pairPacket.Noisy sampleEnv) unusedNode hist n' ∧
    n'.disk.files (pairPacket.path sampleEnv) = some [0x61, 0x62] := by
  have hrun : ((sampleRun [powerOn, deliver (pairPacket.metadataRaw sampleEnv.crc32),
      deliver burstRaw, deliver (pairPacket.packetRaw 0 0), deliver (pairPacket.eofPdu sampleEnv.crc32)]).map
        fun r => decide (.sent (AckPdu.raw ⟨1, uint32Max⟩) ∈ r.2.log)) = some true := by
    decide +kernel
  obtain ⟨r, hr, hack⟩ := Option.map_eq_some_iff.mp hrun
  have hemits {n : Node} {raw : Bytes} (h : pairPacket.Emits sampleEnv.crc32 raw) :
      pairPacket.Noisy sampleEnv n (deliver raw) := by
    cases n with
    | up w => exact ⟨tolerates_emits wellFormed_pairPacket w.rx h, smooth_noFaults⟩
    | down disk log => exact ⟨trivial, smooth_noFaults⟩
  have hok : Node.Run sampleEnv (pairPacket.Noisy sampleEnv) unusedNode r.1 r.2 := by
    refine Machine.exec_run hr fun a ha s _ _ => ?_
    simp only [List.mem_cons, List.not_mem_nil, or_false] at ha
    rcases ha with rfl | rfl | rfl | rfl | rfl
    · cases s with
      | up w => exact smooth_noFaults
      | down disk log => exact smooth_noFaults
    · exact hemits (emits_metadataRaw (by decide +kernel))
    · cases s with
      | up w => exact ⟨tolerates_damaged w.rx damaged_burstRaw, smooth_noFaults⟩
      | down disk log => exact ⟨trivial, smooth_noFaults⟩
    · exact hemits (emits_packetRaw (by decide +kernel))
    · exact hemits .eof
  obtain ⟨-, -, hacked⟩ := run_noisy wellFormed_pairPacket unusedNode_fresh
    (fun g hg => by cases hg) hok
  exact ⟨r.1, r.2, hok, hacked 1 (by simpa using hack)⟩

/-- A packet of which `send` inverts the data byte. -/
def badDice : Transport.Dice := ⟨false, true, 22⟩

theorem writes_badDice : Transport.Writes badDice (onePair.packetRaw 0 0)
    (corrupt (onePair.packetRaw 0 0) 22 0xFF) := by
  refine ⟨rfl, fun s => ?_⟩
  have hlen : (onePair.packetRaw 0 0).length = 23 := by decide +kernel
  have hne : onePair.packetRaw 0 0 ≠ [] := List.ne_nil_of_length_pos (by omega)
  have hmod : 22 % (onePair.packetRaw 0 0).length = 22 := by rw [hlen]
  have hframe : Transport.send badDice (onePair.packetRaw 0 0) s =
      (packU32 ((corrupt (onePair.packetRaw 0 0) 22 0xFF).length : Nat)).map fun len =>
        s.write (len ++ corrupt (onePair.packetRaw 0 0) 22 0xFF) := by
    simp only [Transport.send, badDice, Bool.false_eq_true, if_false, hne, and_false, if_true, hmod,
      List.modify_eq_set]
    rfl
  have hclen : (corrupt (onePair.packetRaw 0 0) 22 0xFF).length = 23 := by decide +kernel
  rw [hframe, packU32_natCast (by omega)]
  rfl

/-- The data byte of a packet is inverted; the session that follows delivers the file. -/
theorem written_recovers_pair : ∃ w N w₀ w' out,
    World.receiveAll sampleEnv w [(onePair.metadataRaw sampleEnv.crc32, noFaults),
      (onePair.queryPdu, noFaults)] = some w₀ ∧
    World.receiveAll sampleEnv w₀
      ((onePair.remaining sampleEnv.crc32 N).map fun raw => (raw, noFaults)) = some w' ∧
    onePair.Completed sampleEnv w' out := by
  have hrun : (sampleRun [powerOn, deliver (onePair.metadataRaw sampleEnv.crc32),
      deliver (corrupt (onePair.packetRaw 0 0) 22 0xFF)]).any (fun r =>
        r.2.world?.any fun w => w.rx.transferActive) = true := by
    decide +kernel
  simp only [Option.any_eq_true, Node.world?_eq_some, Prod.exists] at hrun
  obtain ⟨hist, n, hr, w, rfl, hact⟩ := hrun
  have hok : Node.Run sampleEnv (onePair.Written sampleEnv) unusedNode hist (.up w) := by
    refine Machine.exec_run hr fun a ha s _ _ => ?_
    simp only [List.mem_cons, List.not_mem_nil, or_false] at ha
    rcases ha with rfl | rfl | rfl
    · exact smooth_noFaults
    · refine ⟨⟨⟨false, false, 0⟩, _, emits_metadataRaw (by decide +kernel), fun hc => ?_, ?_⟩,
        smooth_noFaults⟩
      · cases hc
      · exact ⟨rfl, fun s => Transport.Intact.send ⟨rfl, rfl, by decide +kernel⟩ s⟩
    · refine ⟨⟨badDice, _, emits_packetRaw (by decide +kernel), fun _ => ⟨?_, fun ci pi _ => ?_⟩,
        writes_badDice⟩, smooth_noFaults⟩
      · decide +kernel
      · have hhit : badDice.hit (onePair.packetRaw 0 0) = 22 := by decide +kernel
        rw [hhit]
        unfold PlaceByte
        decide
  obtain ⟨-, hall⟩ := written_recovers wellFormed_onePair Crc.composes_zlibCrc32 unusedNode_fresh
    (fun g hg => by cases hg) hok
  obtain ⟨w₀, N, h₀, -, w', out, h', -, hdone⟩ := hall w rfl (.inl hact) noFaults smooth_noFaults
  exact ⟨w, N, w₀, w', out, h₀, h', hdone⟩

end Transfer

end Cfdp
