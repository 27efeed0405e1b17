import Cfdp.Safety

/-!
# Answers

What the receiver transmits on one PDU, delivered intact (`World.Receives`,
`World.Answers`). Metadata, Eof and ResumeQuery never make the process exit, so
each has an answer in every state.

Three of the guarantees a sender relies on are looked at: that a finished
transfer is confirmed again, that an Eof is answered by a NAK for the chunk the
sender is at, and that it is so after a reboot.
-/

namespace Cfdp

open Crash Prog Machine

/-- The handler of `raw` runs to its end and leaves `w'`. -/
def World.Receives (env : Env) (o : Oracle) (w : World) (raw : Bytes) (w' : World) : Prop :=
  ∃ ms, Node.step env (.up w) (.recv raw o none) = some (ms, .up w')

/-- The PDUs transmitted while `raw` is handled are `out`. -/
def World.Answers (env : Env) (o : Oracle) (w : World) (raw : Bytes) (out : List Bytes) : Prop :=
  ∃ w', w.Receives env o raw w' ∧ w'.sent = w.sent ++ out

/-- The world after a PDU is delivered with the outcomes of the calls it makes, if the
receiver survives. -/
def World.receive (env : Env) (w : World) (d : Bytes × Oracle) : Option World :=
  (Node.up w).next env (.recv d.1 d.2 none)

/-- PDUs delivered one after the other. -/
def World.receiveAll (env : Env) (w : World) (ds : List (Bytes × Oracle)) : Option World :=
  ds.foldlM (World.receive env) w

section

variable {env : Env} {o : Oracle} {w w' : World} {raw : Bytes} {out : List Bytes}

theorem World.receive_eq_some {d : Bytes × Oracle} :
    w.receive env d = some w' ↔ w.Receives env d.2 d.1 w' := Node.next_eq_some

@[simp] theorem World.receiveAll_nil : w.receiveAll env [] = some w := rfl

@[simp] theorem World.receiveAll_cons {d : Bytes × Oracle} {ds : List (Bytes × Oracle)} :
    w.receiveAll env (d :: ds) = (w.receive env d).bind fun w' => w'.receiveAll env ds :=
  List.foldlM_cons

@[simp] theorem World.receiveAll_append {ds es : List (Bytes × Oracle)} :
    w.receiveAll env (ds ++ es) = (w.receiveAll env ds).bind fun w' => w'.receiveAll env es :=
  List.foldlM_append

theorem World.Receives.spec {C : World → Prop} {Q : Unit → World → Prop}
    {E : RuntimeError → World → Prop} (h : w.Receives env o raw w')
    (hp : wp (onPduReceived env o raw) C Q E w) : Q () w' := by
  obtain ⟨ms, hs⟩ := h
  simp only [Node.step, Option.map_eq_some_iff] at hs
  obtain ⟨⟨ws, n⟩, hf, hr⟩ := hs
  cases hr
  exact Node.finish_up hp hf

theorem World.Receives.replied (h : w.Receives env o raw w') :
    w.Replied (w.rx.reply env o (verifyFileChecksum env o w') raw) w' := h.spec (wp_reply raw)

theorem World.Receives.pdu {pdu : Pdu} (h : w.Receives env o raw w') (hd : decodePdu raw = some pdu) :
    w.Replied (w.rx.replyPdu env o (verifyFileChecksum env o w') pdu) w' := by
  have := h.replied
  rwa [CfdpReceiver.reply, hd] at this

theorem World.Receives.unique {w'' : World} (h : w.Receives env o raw w')
    (h' : w.Receives env o raw w'') :
    w'' = w' := by
  obtain ⟨ms, hs⟩ := h; obtain ⟨ms', hs'⟩ := h'
  rw [hs] at hs'; cases hs'; rfl

theorem World.Answers.unique {out' : List Bytes} (h : w.Answers env o raw out)
    (h' : w.Answers env o raw out') : out' = out := by
  obtain ⟨w₁, h₁, hs⟩ := h; obtain ⟨w₂, h₂, hs'⟩ := h'
  rw [h₁.unique h₂] at hs'
  exact List.append_cancel_left (hs'.symm.trans hs)

/-- A handler that does not throw runs to its end. -/
theorem receives_of_wp {C : World → Prop} {Q : Unit → World → Prop}
    (h : wp (onPduReceived env o raw) C Q (fun _ _ => False) w) :
    ∃ w', w.Receives env o raw w' ∧ Q () w' := by
  cases hr : (onPduReceived env o raw w).result with
  | error e => exact (h.error hr).elim
  | ok u =>
    refine ⟨(onPduReceived env o raw w).final,
      ⟨w.acceptance raw ++ ((onPduReceived env o raw w).passed ++
        [(onPduReceived env o raw w).final]).map .passed, ?_⟩, h.ok hr⟩
    simp only [Node.step, Node.finish, hr, Option.map_some]

theorem total_checkCompletion :
    wp (checkCompletion env o) (fun _ => True) (fun _ _ => True) (fun _ _ => False) w :=
  wp_checkCompletion (fun _ => trivial) (fun _ _ => ⟨trivial, trivial⟩)
    (fun _ _ => ⟨fun _ => trivial, fun _ _ => trivial⟩)
    (fun _ _ => ⟨trivial, fun _ => trivial, fun _ _ => trivial⟩)

/-- Only a Data PDU can make the process exit. -/
theorem total_pdu {pdu : Pdu} (hd : decodePdu raw = some pdu) (hn : ∀ dpdu, pdu ≠ .data dpdu) :
    wp (onPduReceived env o raw) (fun _ => True) (fun _ _ => True) (fun _ _ => False) w := by
  rw [onPduReceived, hd]
  cases pdu with
  | metadata m =>
    exact wp_handleMetadata (fun _ _ => trivial) (fun _ => ⟨trivial, trivial⟩) fun _ =>
      ⟨fun _ => trivial, fun _ _ _ _ => ⟨fun _ => trivial, trivial, fun _ _ => trivial⟩⟩
  | data dpdu => exact absurd rfl (hn dpdu)
  | eof eof =>
    exact wp_handleEof (fun _ => trivial) (fun _ _ => total_checkCompletion) fun _ _ =>
      ⟨fun _ => trivial, fun _ _ => trivial, fun _ _ => total_checkCompletion⟩
  | resumeQuery query => exact wp_handleResumeQuery.mpr ⟨trivial, trivial⟩

theorem receives_pdu (env : Env) (o : Oracle) (w : World) {pdu : Pdu} (hd : decodePdu raw = some pdu)
    (hn : ∀ dpdu, pdu ≠ .data dpdu) : ∃ w', w.Receives env o raw w' := by
  obtain ⟨w', hw', -⟩ := receives_of_wp (@total_pdu env o w _ _ hd hn)
  exact ⟨w', hw'⟩

end

/-! ## Without an active transfer -/

/-- The Eof of transaction `t`. -/
def eofOf (t checksum : UInt32) : Bytes := PduType.eof.code :: EofPdu.toBytes ⟨t, checksum⟩

/-- The ResumeQuery of transaction `t`. -/
def queryOf (t : UInt32) : Bytes := PduType.resumeQuery.code :: LittleEndian.le32 t

theorem decodePdu_eofOf (t checksum : UInt32) :
    decodePdu (eofOf t checksum) = some (.eof ⟨t, checksum⟩) :=
  decodePdu_eof _

theorem decodePdu_queryOf (t : UInt32) : decodePdu (queryOf t) = some (.resumeQuery ⟨t⟩) :=
  decodePdu_resumeQuery ⟨t⟩

/-- What an idle receiver gives for a lost final ACK: a query is told to start over, an
Eof gets nothing. -/
theorem idle_answers (env : Env) (o : Oracle) {w : World} (h : w.rx.transferActive = false)
    (t checksum : UInt32) : w.Answers env o (queryOf t) [ResumeInfoPdu.raw ⟨t, 0⟩] ∧
      w.Answers env o (eofOf t checksum) [] := by
  constructor
  · obtain ⟨w', hw'⟩ := receives_pdu env o w
      (decodePdu_queryOf t) (by simp)
    refine ⟨w', hw', ?_⟩
    rw [(hw'.pdu (decodePdu_queryOf t)).2]
    simp [CfdpReceiver.replyPdu, CfdpReceiver.replyResumeQuery, firstMissingChunk, h]
  · obtain ⟨w', hw'⟩ := receives_pdu env o w
      (decodePdu_eofOf t checksum) (by simp)
    refine ⟨w', hw', ?_⟩
    rw [(hw'.pdu (decodePdu_eofOf t checksum)).2]
    simp [CfdpReceiver.replyPdu, CfdpReceiver.replyEof, CfdpReceiver.acceptsEof, h]

namespace CfdpReceiver

variable {rx : CfdpReceiver} {env : Env} {o : Oracle} {verified : Bool} {raw : Bytes} {t : UInt32}

theorem complete_final (h : AckPdu.raw ⟨t, uint32Max⟩ ∈ (rx.complete verified).2) :
    (rx.complete verified).1.transferActive = false := by
  unfold complete at h ⊢
  cases hc : rx.completion with
  | silent => rw [hc] at h; cases h
  | nak pdu =>
    rw [hc] at h
    exact absurd (List.mem_singleton.mp h ▸ isAck_raw _) (completion_not_ack hc)
  | verify => cases verified <;> rfl

theorem ne_final {ci : UInt32} (h : ci ≠ uint32Max) : AckPdu.raw ⟨t, uint32Max⟩ ≠ rx.ack ci :=
  fun he => h (congrArg AckPdu.chunkIndex (AckPdu.raw_inj.mp he)).symm

/-- The final ACK ends the active transfer. -/
theorem reply_final (hok : rx.Ok) (ha : rx.transferActive = true)
    (h : AckPdu.raw ⟨t, uint32Max⟩ ∈ (rx.reply env o verified raw).2) :
    (rx.reply env o verified raw).1.transferActive = false := by
  unfold reply at h ⊢
  cases hd : decodePdu raw with
  | none => rw [hd] at h; cases h
  | some pdu =>
    rw [hd] at h
    cases pdu with
    | metadata m =>
      simp only [replyPdu, replyMetadata] at h
      split at h
      · next hr => simp [repeatsAck, ha] at hr
      · split at h <;> cases h
    | data dpdu =>
      simp only [replyPdu, replyData] at h ⊢
      split at h
      · next hacc =>
        have hne := ne_uint32Max (acceptsData_iff.mp hacc).chunk (hok.sane ha).totalChunks.2
        rw [if_pos hacc]
        split at h
        · split at h
          · exact absurd (List.mem_singleton.mp h) (ne_final hne)
          · cases h
        · next hdone =>
          rw [if_neg hdone]
          split at h
          · next hc =>
            rw [if_pos hc]
            rcases List.mem_append.mp h with h | h
            · exact absurd (isAck_raw _) (leaveNak_not_ack (Option.mem_toList.mp h))
            · simp only [replyFlush] at h ⊢
              split at h
              · next he =>
                rw [if_pos he]
                rcases List.mem_cons.mp h with h | h
                · exact absurd h (ne_final hne)
                · exact complete_final h
              · exact absurd (List.mem_singleton.mp h) (ne_final hne)
          · exact absurd (isAck_raw _) (leaveNak_not_ack (Option.mem_toList.mp h))
      · cases h
    | eof eof =>
      simp only [replyPdu, replyEof] at h ⊢
      split at h
      · next hacc => rw [if_pos hacc]; exact complete_final h
      · cases h
    | resumeQuery query =>
      exact absurd (List.mem_singleton.mp h ▸ isAck_raw _) (not_isAck_info _)

theorem replyBoot_final {garbage : JournalState} {loaded : Option (Bool × JournalState)}
    (h : AckPdu.raw ⟨t, uint32Max⟩ ∈ ((construct garbage).replyBoot verified loaded).2) :
    ((construct garbage).replyBoot verified loaded).1.transferActive = false := by
  rcases loaded with _ | ⟨ok, state⟩
  · rfl
  · cases ok with
    | false => rfl
    | true =>
      simp only [replyBoot] at h ⊢
      split at h
      · next hc => rw [if_pos hc]; exact complete_final h
      · cases h

end CfdpReceiver

/-! ## A lost final ACK -/

/-- The PDUs transmitted by a node. -/
def Node.sent (n : Node) : List Bytes := n.log.filterMap Event.pdu?

/-- In this step a transfer is verified and the final ACK of `t` sent: the step is a boot,
or a PDU that finds a transfer active. -/
def Node.Finishes (env : Env) (t : UInt32) (n : Node) (a : Action) (w : World) : Prop :=
  (∃ ms, Node.step env n a = some (ms, .up w)) ∧
    (∀ v, n = .up v → v.rx.transferActive = true) ∧
      ∃ out, w.sent = n.sent ++ out ∧ AckPdu.raw ⟨t, uint32Max⟩ ∈ out

/-- Steps in which no transfer is accepted and the receiver does not stop. -/
def Lingers : Node → Action → Prop
  | .up w, .recv raw _ none => w.acceptance raw = []
  | _, _ => False

section

variable {env : Env} {ok : Node → Action → Prop} {n n₀ : Node} {a : Action} {w w₁ w₂ : World}
  {hist hist' : List Moment} {t : UInt32}

theorem Node.Finishes.idle (hn : n.Ok) (h : n.Finishes env t a w) : w.rx.transferActive = false := by
  obtain ⟨⟨ms, hs⟩, hact, out, hout, hmem⟩ := h
  cases n with
  | up v =>
    cases a with
    | recv raw o cut =>
      simp only [Node.step, Option.map_eq_some_iff] at hs
      obtain ⟨⟨ws, n⟩, hf, hr⟩ := hs
      cases hr
      obtain ⟨hrx, hsent⟩ := Node.finish_up (wp_reply raw) hf
      have he : out = (v.rx.reply env o (verifyFileChecksum env o w) raw).2 :=
        List.append_cancel_left (hout.symm.trans hsent)
      rw [hrx]
      exact CfdpReceiver.reply_final hn.1 (hact v rfl) (he ▸ hmem)
    | crash => cases hs
    | boot => cases hs
  | down disk log =>
    cases a with
    | recv => cases hs
    | crash => cases hs
    | boot garbage o cut =>
      simp only [Node.step, Option.map_eq_some_iff] at hs
      obtain ⟨⟨ws, n⟩, hf, hr⟩ := hs
      cases hr
      obtain ⟨hrx, hsent⟩ := Node.finish_up replies_onBoot hf
      have he := List.append_cancel_left (hout.symm.trans hsent)
      rw [hrx]
      exact CfdpReceiver.replyBoot_final (he ▸ hmem)

theorem Run.lingers_idle (hw : w₁.rx.transferActive = false)
    (h : Node.Run env Lingers (.up w₁) hist (.up w₂)) : w₂.rx.transferActive = false := by
  refine h.inv (I := fun _ n => ∀ w, n = .up w → w.rx.transferActive = false)
    (fun w hn => by cases hn; exact hw) (fun _ n a ms n' hi ha hs w hn => ?_) w₂ rfl
  subst hn
  cases n with
  | down disk log => cases a <;> exact ha.elim
  | up v =>
    cases a with
    | crash => exact ha.elim
    | boot => exact ha.elim
    | recv raw o cut =>
      simp only [Node.step, Option.map_eq_some_iff] at hs
      obtain ⟨⟨ws, n⟩, hf, hr⟩ := hs
      cases hr
      rw [(Node.finish_up (wp_reply raw) hf).1]
      refine CfdpReceiver.reply_idle (hi v rfl) fun m hd => ?_
      cases cut with
      | some k => exact ha.elim
      | none =>
        have hacc : v.acceptance raw = [] := ha
        simp only [World.acceptance, hd] at hacc
        split at hacc
        · cases hacc
        · next hm => simpa using hm

/-- **A lost final ACK is not recovered by a query or an Eof**: after a transfer has
finished, and as long as no other is accepted and the receiver runs, a ResumeQuery is
not told that everything is there and an Eof is not acknowledged. -/
theorem finalAck_not_recovered (hn : n₀.Fresh) (h : Node.Run env ok n₀ hist n)
    (hf : n.Finishes env t a w₁) (hl : Node.Run env Lingers (.up w₁) hist' (.up w₂)) (o : Oracle)
    (checksum : UInt32) :
    ¬ w₂.Answers env o (queryOf t) [ResumeInfoPdu.raw ⟨t, uint32Max⟩] ∧
      ¬ w₂.Answers env o (eofOf t checksum) [AckPdu.raw ⟨t, uint32Max⟩] := by
  have hidle := Run.lingers_idle (hf.idle (Node.Run.ok hn h)) hl
  obtain ⟨hq, he⟩ := idle_answers env o hidle t checksum
  refine ⟨fun h' => ?_, fun h' => ?_⟩
  · have := hq.unique h'
    simp [ResumeInfoPdu.raw] at this
    revert this; decide
  · have := he.unique h'
    cases this

/-- The Eof of a file of one byte finishes its transfer. -/
theorem finishes_small : ∃ hist n w, Node.Run sampleEnv (fun _ _ => True) unusedNode hist n ∧
    n.Finishes sampleEnv 1 (deliver ((Transfer.small [0x61]).eofPdu sampleEnv.crc32)) w := by
  have hrun : (sampleRun [powerOn, deliver ((Transfer.small [0x61]).metadataRaw sampleEnv.crc32),
      deliver ((Transfer.small [0x61]).packetRaw 0 0)]).any (fun r => r.2.world?.any fun v =>
        (r.2.next sampleEnv (deliver ((Transfer.small [0x61]).eofPdu sampleEnv.crc32))).any fun w =>
          v.rx.transferActive && decide (w.sent = v.sent ++ [AckPdu.raw ⟨1, uint32Max⟩])) = true := by
    decide +kernel
  simp only [Option.any_eq_true, Node.world?_eq_some, Node.next_eq_some, Bool.and_eq_true,
    decide_eq_true_eq, Prod.exists] at hrun
  obtain ⟨hist, n, hr, v, rfl, w, ⟨ms, hs⟩, ha, hsent⟩ := hrun
  refine ⟨hist, .up v, w, Machine.exec_run hr fun _ _ _ _ _ => trivial, ⟨ms, hs⟩, ?_, _, hsent,
    List.mem_singleton_self _⟩
  rintro v' hv'
  cases hv'
  exact ha

theorem finalAck_not_recovered_small : ∃ w : World,
    ¬ w.Answers sampleEnv noFaults (queryOf 1) [ResumeInfoPdu.raw ⟨1, uint32Max⟩] ∧
      ¬ w.Answers sampleEnv noFaults (eofOf 1 0) [AckPdu.raw ⟨1, uint32Max⟩] := by
  obtain ⟨hist, n, w, hrun, hf⟩ := finishes_small
  exact ⟨w, finalAck_not_recovered unusedNode_fresh hrun hf .start noFaults 0⟩

/-- So it is not the case that a lost final ACK is always recovered. -/
theorem not_finalAck_recovered : ¬ ∀ (env : Env) (n₀ n : Node) (a : Action) (w₁ w₂ : World)
    (hist hist' : List Moment) (t : UInt32), n₀.Fresh → Node.Run env (fun _ _ => True) n₀ hist n →
      n.Finishes env t a w₁ → Node.Run env Lingers (.up w₁) hist' (.up w₂) →
      ∀ o checksum, o.Smooth → w₂.Answers env o (queryOf t) [ResumeInfoPdu.raw ⟨t, uint32Max⟩] ∧
        w₂.Answers env o (eofOf t checksum) [AckPdu.raw ⟨t, uint32Max⟩] := by
  intro h
  obtain ⟨hist, n, w, hrun, hf⟩ := finishes_small
  have hidle := hf.idle (Node.Run.ok unusedNode_fresh hrun)
  have he := (idle_answers sampleEnv noFaults hidle 1 0).2
  have := he.unique
    (h sampleEnv unusedNode n _ w w hist [] 1 unusedNode_fresh hrun hf .start noFaults 0
      smooth_noFaults).2
  cases this

end

/-! ## NAKs -/

theorem toBytes_append_inj {r q : PacketNakRange} {b c : Bytes} (h : r.toBytes ++ b = q.toBytes ++ c) :
    r = q ∧ b = c := by
  obtain ⟨h1, h2⟩ := List.append_inj h rfl
  refine ⟨?_, h2⟩
  obtain ⟨h3, h4⟩ := List.append_inj h1 rfl
  obtain ⟨h5, h6⟩ := List.append_inj h4 rfl
  cases r; cases q
  simp only [PacketNakRange.mk.injEq]
  exact ⟨LittleEndian.le32_inj h3, LittleEndian.le32_inj h5, LittleEndian.le32_inj h6⟩

theorem flatMap_toBytes_inj {rs qs : List PacketNakRange}
    (h : rs.flatMap PacketNakRange.toBytes = qs.flatMap PacketNakRange.toBytes) : rs = qs := by
  induction rs generalizing qs with
  | nil =>
    cases qs with
    | nil => rfl
    | cons q qs => cases h
  | cons r rs ih =>
    cases qs with
    | nil => cases h
    | cons q qs =>
      obtain ⟨rfl, h'⟩ := toBytes_append_inj h
      rw [ih h']

theorem serializeNak_inj {nak nak' : NakPdu} (h : serializeNak nak = serializeNak nak') :
    nak = nak' := by
  obtain ⟨-, h⟩ := List.cons.inj h
  obtain ⟨h1, h⟩ := List.append_inj h rfl
  obtain ⟨-, h⟩ := List.append_inj h rfl
  cases nak; cases nak'
  simp only [NakPdu.mk.injEq]
  exact ⟨LittleEndian.le32_inj h1, flatMap_toBytes_inj h⟩

/-- The NAK asks for packets of chunk `k` only, and for all those in `missing`. -/
structure NakPdu.Requests (nak : NakPdu) (t k : UInt32) (missing : Nat → Prop) : Prop where
  tid : nak.transactionId = t
  chunk : ∀ r ∈ nak.missingPackets, r.chunkIndex = k
  covers : ∀ pi, missing pi →
    ∃ r ∈ nak.missingPackets, r.firstPacket.toNat ≤ pi ∧ pi ≤ r.lastPacket.toNat

/-- One of the answers is a NAK for the packets `missing` of chunk `k`. -/
def Naked (out : List Bytes) (t k : UInt32) (missing : Nat → Prop) : Prop :=
  ∃ nak, serializeNak nak ∈ out ∧ nak.Requests t k missing

theorem not_naked_nil {t k : UInt32} {missing : Nat → Prop} : ¬ Naked [] t k missing := by
  rintro ⟨nak, h, -⟩
  cases h

theorem naked_singleton {nak : NakPdu} {t k : UInt32} {missing : Nat → Prop} :
    Naked [serializeNak nak] t k missing ↔ nak.Requests t k missing := by
  constructor
  · rintro ⟨nak', h, hr⟩
    rwa [serializeNak_inj (List.mem_singleton.mp h)] at hr
  · exact fun h => ⟨nak, List.mem_singleton_self _, h⟩

namespace CfdpReceiver

/-- Packet `pi` of chunk `k` has been received, with a matching CRC-8. -/
def Holds (rx : CfdpReceiver) (k : UInt32) (pi : Nat) : Prop :=
  rx.currentChunkIndex = k ∧ ∃ node, rx.packetList.index[pi]? = some node ∧ node.ok = true

/-- The NAK for the chunk in progress. -/
def progressNak (rx : CfdpReceiver) : NakPdu :=
  ⟨rx.state.transactionId, rx.packetList.computeNakRanges.map fun r => ⟨rx.currentChunkIndex, r.1, r.2⟩⟩

/-- The NAK for all packets of a chunk. -/
def wholeNak (rx : CfdpReceiver) (ci : UInt32) : NakPdu :=
  ⟨rx.state.transactionId, [⟨ci, 0, rx.state.expectedPkts ci - 1⟩]⟩

variable {rx : CfdpReceiver}

/-- The slots a Data PDU meets. -/
theorem listFor_holds {d : DataPdu} {q : Nat} :
    (∃ node, (rx.listFor d).index[q]? = some node ∧ node.ok = true) ↔ rx.Holds d.chunkIndex q := by
  unfold listFor Holds
  split
  · next hc => simp [hc]
  · next hc =>
    refine iff_of_false ?_ fun h => hc h.1.symm
    rintro ⟨node, hn, hok⟩
    obtain ⟨i, -, rfl⟩ := List.mem_map.mp (List.mem_of_getElem? hn)
    cases hok

/-- Storing a packet with a matching CRC-8 fills its slot and keeps the others. -/
theorem holds_take {d : DataPdu} {q : Nat} (h : rx.Steady) (ha : rx.Accepted d)
    (hslot : d.packetIndex.toNat < d.totalPackets.toNat) (hcrc : Crc.crc8 d.data = d.crc8) :
    (rx.take d).Holds d.chunkIndex q ↔ q = d.packetIndex.toNat ∨ rx.Holds d.chunkIndex q := by
  obtain ⟨hwf, htot⟩ := h.listFor ha
  obtain ⟨old, hold, hidx, -⟩ :=
    hwf.insert_index d.packetIndex (by rw [htot, ← ha.packets]; exact hslot)
    d.data (Crc.crc8 d.data == d.crc8)
  obtain ⟨hlt, -⟩ := List.getElem?_eq_some_iff.mp hold
  rw [Holds, take_currentChunkIndex, take_packetList, hidx, ← listFor_holds]
  by_cases hq : q = d.packetIndex.toNat
  · subst hq
    rw [List.getElem?_set_self hlt]
    simp [PacketNode.ok, hcrc]
  · rw [List.getElem?_set_ne (Ne.symm hq)]
    simp [hq]

/-- A list is complete once every slot is held. -/
theorem complete_iff_holds {k : UInt32} (hwf : rx.packetList.Wf) (hk : rx.currentChunkIndex = k) :
    rx.packetList.isComplete = true ↔ 0 < rx.packetList.totalPackets.toNat ∧
      ∀ q, q < rx.packetList.totalPackets.toNat → rx.Holds k q := by
  rw [hwf.isComplete_iff]
  refine and_congr_right fun _ => ⟨fun hall q hq => ?_, fun hheld node hn => ?_⟩
  · have hql : q < rx.packetList.index.length := by rwa [hwf.length]
    exact ⟨hk, _, List.getElem?_eq_getElem hql, hall _ (List.getElem_mem hql)⟩
  · obtain ⟨q, hq⟩ := List.getElem?_of_mem hn
    obtain ⟨hlt, -⟩ := List.getElem?_eq_some_iff.mp hq
    obtain ⟨-, node', hn', hok⟩ := hheld q (by rwa [← hwf.length])
    rw [hq] at hn'
    cases hn'
    exact hok

/-- The slots of a chunk are never all held between PDUs: it is flushed before. -/
theorem Ok.not_all_held {c : UInt32} (hok : rx.Ok) (ha : rx.transferActive = true)
    (hg : rx.state.Regular) (hc : c.toNat < rx.state.totalChunks.toNat) :
    ¬ ∀ pi, pi < rx.state.numPackets c.toNat → rx.Holds c pi := by
  intro hall
  have hpos := hg.numPackets_pos hc
  have hcur := (hall 0 hpos).1
  have hb := hok.busy ha (hcur.trans_ne (ne_uint32Max hc hg.sane.totalChunks.2))
  have htot : rx.packetList.totalPackets.toNat = rx.state.numPackets c.toNat := by
    rw [hb.slots, hcur, hg.expectedPkts hc]
  have hcomp := (complete_iff_holds hok.wf hcur).mpr
    ⟨by rwa [htot], fun q hq => hall q (by rwa [htot] at hq)⟩
  rw [hb.incomplete] at hcomp
  cases hcomp

/-- With a chunk in progress, a slot is open and there is a NAK for it. -/
theorem packetNak_busy (hwf : rx.packetList.Wf) (hinc : rx.packetList.isComplete = false)
    (hpos : 0 < rx.packetList.totalPackets.toNat) :
    rx.packetNak = some (serializeNak rx.progressNak) := by
  have hopen : ∃ node ∈ rx.packetList.index, node.ok = false := by
    by_contra h
    have hall : ∀ node ∈ rx.packetList.index, node.ok = true := fun node hn => by
      by_contra hok
      exact h ⟨node, hn, by simpa using hok⟩
    have := hwf.isComplete_iff.mpr ⟨hpos, hall⟩
    rw [hinc] at this; cases this
  obtain ⟨node, hn, hok⟩ := hopen
  obtain ⟨i, hi⟩ := List.getElem?_of_mem hn
  obtain ⟨r, hr, -⟩ := (hwf.covered_nakRanges i).mpr ⟨node, hi, hok⟩
  exact packetNak_of_ne (List.ne_nil_of_mem hr)

/-- With a chunk in progress, completion asks for its missing packets. -/
theorem completion_busy (rx : CfdpReceiver) (he : rx.state.eofReceived = true)
    (hne : rx.currentChunkIndex ≠ uint32Max)
    (hwf : rx.packetList.Wf) (hp : rx.InProgress) (hpos : 0 < rx.packetList.totalPackets.toNat) :
    rx.completion = .nak (serializeNak rx.progressNak) := by
  have hu : rx.unfinished = true := by simp [unfinished, hne, hp.incomplete]
  have hpk := packetNak_busy hwf hp.incomplete hpos
  rcases rx.completionCase with ⟨he', -⟩ | ⟨-, -, hc⟩ | ⟨-, hu', -⟩ | ⟨-, hu', -⟩ | ⟨-, hu', -⟩
  · rw [he] at he'; cases he'
  · rw [hc, hpk]
  all_goals rw [hu] at hu'; cases hu'

theorem not_unfinished (h : rx.currentChunkIndex = uint32Max) : rx.unfinished = false := by
  simp [unfinished, h]

/-- Without one, it asks for the first missing chunk, if that is not beyond those seen. -/
theorem completion_sent (rx : CfdpReceiver) (he : rx.state.eofReceived = true)
    (hc : rx.currentChunkIndex = uint32Max)
    {cr : ChunkNakRange} {rs : List ChunkNakRange} (hm : rx.state.computeMissingChunks = cr :: rs)
    (hle : cr.firstChunk.toNat ≤ rx.maxChunkSeen.toNat) :
    rx.completion = .nak (serializeNak (rx.wholeNak cr.firstChunk)) := by
  have hs : rx.sentMissing = some cr := by
    have hgt : ¬ cr.firstChunk > rx.maxChunkSeen := by
      rw [gt_iff_lt, UInt32.lt_iff_toNat_lt]; omega
    simp [sentMissing, hm, hgt]
  rcases rx.completionCase with ⟨he', -⟩ | ⟨-, hu, -⟩ | ⟨-, -, cr', hm', h⟩ | ⟨-, -, hn, -⟩ | ⟨-, -, hn, -⟩
  · rw [he] at he'; cases he'
  · rw [not_unfinished hc] at hu; cases hu
  · rw [hs] at hm'; cases hm'; exact h
  · rw [hs] at hn; cases hn
  · rw [hm] at hn; cases hn

/-- It is silent if every missing chunk is. -/
theorem completion_unsent (rx : CfdpReceiver) (he : rx.state.eofReceived = true)
    (hc : rx.currentChunkIndex = uint32Max) (hne : rx.state.computeMissingChunks ≠ [])
    (hgt : ∀ cr ∈ rx.state.computeMissingChunks, rx.maxChunkSeen.toNat < cr.firstChunk.toNat) :
    rx.completion = .silent := by
  have hs : rx.sentMissing = none := by
    unfold sentMissing
    rw [List.find?_eq_none]
    intro cr hcr
    have : cr.firstChunk > rx.maxChunkSeen := UInt32.lt_iff_toNat_lt.mpr (hgt cr hcr)
    simp [this]
  rcases rx.completionCase with ⟨he', -⟩ | ⟨-, hu, -⟩ | ⟨-, -, cr', hm', -⟩ | ⟨-, -, -, -, h⟩ | ⟨-, -, hn, -⟩
  · rw [he] at he'; cases he'
  · rw [not_unfinished hc] at hu; cases hu
  · rw [hs] at hm'; cases hm'
  · exact h
  · exact absurd hn hne

/-- The first missing chunk is the one below which all are done. -/
theorem missing_eq {k : UInt32} (hk : k < rx.state.totalChunks) (hopen : rx.state.isDone k = false)
    (hbelow : ∀ j, j < k → rx.state.isDone j = true) :
    ∃ cr rs, rx.state.computeMissingChunks = cr :: rs ∧ cr.firstChunk = k := by
  cases hm : rx.state.computeMissingChunks with
  | nil =>
    rw [(JournalState.computeMissingChunks_eq_nil _).mp hm k hk] at hopen; cases hopen
  | cons cr rs =>
    obtain ⟨-, h2, h3⟩ := JournalState.computeMissingChunks_head hm
    refine ⟨cr, rs, rfl, ?_⟩
    rcases Nat.lt_trichotomy cr.firstChunk.toNat k.toNat with h | h | h
    · rw [hbelow _ (UInt32.lt_iff_toNat_lt.mpr h)] at h2; cases h2
    · exact UInt32.toNat_inj.mp h
    · rw [h3 k (UInt32.lt_iff_toNat_lt.mpr h)] at hopen; cases hopen

/-- What an Eof of the active transfer is answered. -/
theorem replyEof_of_nak {verified : Bool} {eof : EofPdu} {pdu : Bytes} (ha : rx.acceptsEof eof = true)
    (hc : ({ rx with state := rx.state.markEof } : CfdpReceiver).completion = .nak pdu) :
    (rx.replyEof verified eof).2 = [pdu] := by
  unfold replyEof
  rw [if_pos ha, complete, hc]

theorem replyEof_of_silent {verified : Bool} {eof : EofPdu} (ha : rx.acceptsEof eof = true)
    (hc : ({ rx with state := rx.state.markEof } : CfdpReceiver).completion = .silent) :
    (rx.replyEof verified eof).2 = [] := by
  unfold replyEof
  rw [if_pos ha, complete, hc]

/-! ## An Eof while a chunk is missing -/

variable {env : Env} {o : Oracle} {x : Transfer} {k : UInt32}

/-- The NAK for the chunk in progress asks for the packets not held. -/
theorem requests_progressNak (rx : CfdpReceiver) (hwf : rx.packetList.Wf) {n : Nat}
    (hn : rx.packetList.totalPackets.toNat = n) :
    rx.progressNak.Requests rx.state.transactionId rx.currentChunkIndex
      fun pi => pi < n ∧ ¬ rx.Holds rx.currentChunkIndex pi where
  tid := rfl
  chunk r hr := by
    obtain ⟨q, -, rfl⟩ := List.mem_map.mp hr
    rfl
  covers pi h := by
    obtain ⟨hpi, hnot⟩ := h
    have hlt : pi < rx.packetList.index.length := by rw [hwf.length, hn]; exact hpi
    have hok : rx.packetList.index[pi].ok = false := by
      by_contra hok
      exact hnot ⟨rfl, _, List.getElem?_eq_getElem hlt, by simpa using hok⟩
    obtain ⟨r, hr, h1, h2⟩ := (hwf.covered_nakRanges pi).mpr ⟨_, List.getElem?_eq_getElem hlt, hok⟩
    exact ⟨_, List.mem_map.mpr ⟨r, hr, rfl⟩, h1, h2⟩

/-- The NAK for a whole chunk asks for all its packets. -/
theorem requests_wholeNak (rx : CfdpReceiver) (hx : x.WellFormed) (hm : x.Matches env rx.state)
    (hk : k.toNat < x.totalChunks) (missing : Nat → Prop)
    (hmiss : ∀ pi, missing pi → pi < x.numPackets k.toNat) :
    (rx.wholeNak k).Requests rx.state.transactionId k missing where
  tid := rfl
  chunk r hr := by rw [List.mem_singleton.mp hr]
  covers pi h := by
    refine ⟨_, List.mem_singleton_self _, Nat.zero_le _, ?_⟩
    have h1 := hm.expectedPkts hx hk
    have h2 := hmiss pi h
    have h3 := (rx.state.expectedPkts k).toNat_lt
    rw [UInt32.toNat_sub, show (1 : UInt32).toNat = 1 from rfl]
    omega

/-- The answer to an Eof while chunk `k` is the first one missing: a NAK for the packets
of `k` not held, unless another chunk is in progress or `k` has not been seen. -/
theorem replyEof_naked_iff (hok : rx.Ok) (ha : rx.transferActive = true) (hx : x.WellFormed)
    (hm : x.Matches env rx.state) (hk : k < rx.state.totalChunks) (hopen : rx.state.isDone k = false)
    (hbelow : ∀ j, j < k → rx.state.isDone j = true) (verified : Bool) (checksum : UInt32) :
    Naked (rx.replyEof verified ⟨x.tid, checksum⟩).2 x.tid k
        (fun pi => pi < x.numPackets k.toNat ∧ ¬ rx.Holds k pi) ↔
      rx.currentChunkIndex = k ∨
        (rx.currentChunkIndex = uint32Max ∧ k.toNat ≤ rx.maxChunkSeen.toNat) := by
  have hacc : rx.acceptsEof ⟨x.tid, checksum⟩ = true := by simp [acceptsEof, ha, hm.tid]
  have hkt : k.toNat < x.totalChunks := by rw [← hm.totalChunks]; exact UInt32.lt_iff_toNat_lt.mp hk
  have hkmax : k ≠ uint32Max := ne_uint32Max (UInt32.lt_iff_toNat_lt.mp hk) hm.sane.totalChunks.2
  have hpos := hx.numPackets_pos hkt
  by_cases hc : rx.currentChunkIndex = uint32Max
  · obtain ⟨cr, rs, hmiss, hcr⟩ := missing_eq hk hopen hbelow
    by_cases hle : k.toNat ≤ rx.maxChunkSeen.toNat
    · rw [replyEof_of_nak hacc (completion_sent { rx with state := rx.state.markEof } rfl hc
        hmiss (by rw [hcr]; exact hle)), naked_singleton, hcr]
      refine iff_of_true ?_ (.inr ⟨hc, hle⟩)
      have := requests_wholeNak { rx with state := rx.state.markEof } hx hm.markEof hkt
        (fun pi => pi < x.numPackets k.toNat ∧ ¬ rx.Holds k pi) fun _ h => h.1
      rwa [show (rx.state.markEof).transactionId = x.tid from hm.tid] at this
    · rw [replyEof_of_silent hacc (completion_unsent { rx with state := rx.state.markEof } rfl
        hc (by show rx.state.computeMissingChunks ≠ []; rw [hmiss]; simp) fun cr' hcr' => ?_)]
      · refine iff_of_false not_naked_nil ?_
        rintro (h | h)
        · exact hkmax (h.symm.trans hc)
        · exact hle h.2
      · -- no missing chunk is below `k`
        obtain ⟨-, hopen'⟩ := JournalState.open_of_mem_missing hcr'
        have : ¬ cr'.firstChunk < k := fun hlt => by
          rw [show (rx.state.markEof).isDone cr'.firstChunk = true from hbelow _ hlt] at hopen'
          cases hopen'
        rw [UInt32.lt_iff_toNat_lt] at this
        show rx.maxChunkSeen.toNat < _
        omega
  · have hp := hok.busy ha hc
    have hct : rx.currentChunkIndex.toNat < x.totalChunks := by rw [← hm.totalChunks]; exact hp.lt
    have htot : rx.packetList.totalPackets.toNat = x.numPackets rx.currentChunkIndex.toNat := by
      rw [hp.slots]; exact hm.expectedPkts hx hct
    rw [replyEof_of_nak hacc (completion_busy { rx with state := rx.state.markEof } rfl hc
      hok.wf ⟨hp.lt, hp.seen, hp.open_, hp.slots, hp.incomplete⟩
      (by show 0 < rx.packetList.totalPackets.toNat; rw [htot]; exact hx.numPackets_pos hct)),
      naked_singleton]
    by_cases hck : rx.currentChunkIndex = k
    · refine iff_of_true ?_ (.inl hck)
      subst hck
      have := requests_progressNak { rx with state := rx.state.markEof } hok.wf htot
      rwa [show (rx.state.markEof).transactionId = x.tid from hm.tid] at this
    · refine iff_of_false (fun hr => ?_) (by simp [hck, hc])
      -- the NAK is for another chunk
      obtain ⟨r, hr', -⟩ := hr.covers 0 ⟨hpos, fun h => hck h.1⟩
      have h1 := hr.chunk r hr'
      obtain ⟨q, -, rfl⟩ := List.mem_map.mp hr'
      exact hck h1

end CfdpReceiver

section

variable {env : Env} {x : Transfer} {ok : Node → Action → Prop} {n : Node} {w : World}
  {hist : List Moment} {k : UInt32} {o : Oracle}

/-- What the receiver answers an Eof of the active transfer. -/
theorem answers_eof (env : Env) (o : Oracle) (w : World) (t checksum : UInt32) :
    ∃ verified, w.Answers env o (eofOf t checksum) (w.rx.replyEof verified ⟨t, checksum⟩).2 := by
  obtain ⟨w', hw'⟩ := receives_pdu env o w (decodePdu_eofOf t checksum) (by simp)
  exact ⟨verifyFileChecksum env o w', w', hw', (hw'.pdu (decodePdu_eofOf t checksum)).2⟩

/-- **An Eof is answered by a NAK for the first missing chunk** exactly when this chunk is
in progress, or none is and the chunk is not beyond those seen. -/
theorem eof_naked_iff (hn : n.Fresh) (h : Node.Run env ok n hist (.up w)) (hx : x.WellFormed)
    (ha : w.rx.transferActive = true) (hm : x.Matches env w.rx.state) (hk : k < w.rx.state.totalChunks)
    (hopen : w.rx.state.isDone k = false) (hbelow : ∀ j, j < k → w.rx.state.isDone j = true)
    (o : Oracle) (checksum : UInt32) :
    (∃ out, w.Answers env o (eofOf x.tid checksum) out ∧
        Naked out x.tid k fun pi => pi < x.numPackets k.toNat ∧ ¬ w.rx.Holds k pi) ↔
      w.rx.currentChunkIndex = k ∨
        (w.rx.currentChunkIndex = uint32Max ∧ k.toNat ≤ w.rx.maxChunkSeen.toNat) := by
  have hok : w.rx.Ok := (Node.Run.ok hn h).1
  obtain ⟨verified, hans⟩ := answers_eof env o w x.tid checksum
  rw [← CfdpReceiver.replyEof_naked_iff hok ha hx hm hk hopen hbelow verified checksum]
  constructor
  · rintro ⟨out, hout, hnak⟩
    rwa [← hans.unique hout]
  · exact fun hnak => ⟨_, hans, hnak⟩

/-- After the Metadata of a file of one byte, an Eof is answered by a NAK for chunk 0. -/
theorem eof_naked_small : ∃ w out, World.Answers sampleEnv noFaults w (eofOf 1 0) out ∧
    Naked out 1 0 fun pi => pi < (Transfer.small [0x61]).numPackets 0 ∧ ¬ w.rx.Holds 0 pi := by
  have hrun : (sampleRun [powerOn, deliver ((Transfer.small [0x61]).metadataRaw sampleEnv.crc32)]).any
      (fun r => r.2.world?.any fun w => w.rx.transferActive && !w.rx.state.isDone 0 &&
        w.rx.currentChunkIndex == uint32Max && decide (0 < w.rx.state.totalChunks)) = true := by
    decide +kernel
  simp only [Option.any_eq_true, Node.world?_eq_some, Bool.and_eq_true, Bool.not_eq_true', beq_iff_eq,
    decide_eq_true_eq, Prod.exists] at hrun
  obtain ⟨hist, n, hr, w, rfl, ⟨⟨ha, hopen⟩, hcur⟩, hpos⟩ := hrun
  have hok : Node.Run sampleEnv ((Transfer.small [0x61]).Surroundings sampleEnv) unusedNode hist (.up w) := by
    refine Machine.exec_run hr fun a ha s _ _ => ?_
    simp only [List.mem_cons, List.not_mem_nil, or_false] at ha
    rcases ha with rfl | rfl
    · exact smooth_noFaults
    · exact ⟨Transfer.emits_metadataRaw (by decide +kernel), smooth_noFaults⟩
  obtain ⟨out, hout, hnak⟩ := (eof_naked_iff unusedNode_fresh hok
    (Transfer.wellFormed_small (by simp) (by simp)) ha
    ((Transfer.Run.nodeInv (by decide) unusedNode_fresh (fun g hg => by cases hg) hok).1.record ha)
    hpos hopen (fun j hj => absurd hj (by simp)) noFaults 0).mpr (.inr ⟨hcur, Nat.zero_le _⟩)
  exact ⟨w, out, hout, hnak⟩

/-- Deliveries of PDUs in `sent`, without crashes. -/
def Undisturbed (sent : List Bytes) : Node → Action → Prop
  | .up _, .recv raw o none => raw ∈ sent ∧ o.Smooth
  | _, _ => False

def twoBytes : Transfer := .small [0x61, 0x62]

/-- What a sender of two bytes has sent once it has come to the second. -/
def twoBytesSent : List Bytes :=
  [twoBytes.metadataRaw sampleEnv.crc32, twoBytes.packetRaw 0 0, twoBytes.eofPdu sampleEnv.crc32,
    twoBytes.packetRaw 1 0]

theorem emits_twoBytesSent : ∀ raw ∈ twoBytesSent, twoBytes.Emits sampleEnv.crc32 raw := by
  intro raw hraw
  simp only [twoBytesSent, List.mem_cons, List.not_mem_nil, or_false] at hraw
  rcases hraw with rfl | rfl | rfl | rfl
  · exact Transfer.emits_metadataRaw (by decide +kernel)
  · exact Transfer.emits_packetRaw (by decide +kernel)
  · exact .eof
  · exact Transfer.emits_packetRaw (by decide +kernel)

/-- If all of chunk 1 is lost, the Eof after it is not answered at all. -/
theorem not_eof_naked : ¬ ∀ (env : Env) (x : Transfer) (sent : List Bytes) (n : Node)
    (garbage : JournalState) (o₀ : Oracle) (ms hist : List Moment) (w₀ w : World) (k : UInt32),
    n.Fresh → Node.step env n (.boot garbage o₀ none) = some (ms, .up w₀) → x.WellFormed →
    (∀ raw ∈ sent, x.Emits env.crc32 raw) →
    (∀ pi, pi < x.numPackets k.toNat → x.packetRaw k.toNat pi ∈ sent) →
    Node.Run env (Undisturbed sent) (.up w₀) hist (.up w) → w.rx.transferActive = true →
    w.rx.state.transactionId = x.tid → k < w.rx.state.totalChunks → w.rx.state.isDone k = false →
    (∀ j, j < k → w.rx.state.isDone j = true) → ∀ o checksum, o.Smooth →
    ∃ out, w.Answers env o (eofOf x.tid checksum) out ∧
      Naked out x.tid k fun pi => pi < x.numPackets k.toNat ∧ ¬ w.rx.Holds k pi := by
  intro h
  have hrun : (unusedNode.next sampleEnv powerOn).any (fun w₀ => (Machine.exec (Node.step sampleEnv) (.up w₀)
      [deliver (twoBytes.metadataRaw sampleEnv.crc32), deliver (twoBytes.packetRaw 0 0),
        deliver (twoBytes.eofPdu sampleEnv.crc32)]).any fun r => r.2.world?.any fun w =>
          w.rx.transferActive && w.rx.state.transactionId == 1 && w.rx.state.totalChunks == 2 &&
            w.rx.state.isDone 0 && !w.rx.state.isDone 1 &&
            (r.2.next sampleEnv (deliver (eofOf 1 0))).any fun w' =>
              decide (w'.sent = w.sent)) = true := by
    decide +kernel
  simp only [Option.any_eq_true, Node.world?_eq_some, Node.next_eq_some, Bool.and_eq_true, beq_iff_eq,
    Bool.not_eq_true', decide_eq_true_eq, Prod.exists] at hrun
  obtain ⟨w₀, ⟨ms, hboot⟩, hist, n, hexec, w, rfl, ⟨⟨⟨⟨ha, ht⟩, htot⟩, hd0⟩, hd1⟩, w', ⟨ms', hstep⟩,
    hans⟩ := hrun
  have hok : Node.Run sampleEnv (Undisturbed twoBytesSent) (.up w₀) hist (.up w) := by
    refine Machine.exec_run hexec fun a ha s r hs => ?_
    simp only [List.mem_cons, List.not_mem_nil, or_false] at ha
    cases s with
    | down disk log => rcases ha with rfl | rfl | rfl <;> cases hs
    | up v =>
      rcases ha with rfl | rfl | rfl <;> exact ⟨by simp [twoBytesSent], smooth_noFaults⟩
  have hall (pi : Nat) (hpi : pi < twoBytes.numPackets 1) : twoBytes.packetRaw 1 pi ∈ twoBytesSent := by
    have hpi' : pi < 1 := hpi
    obtain rfl : pi = 0 := by omega
    simp [twoBytesSent]
  have hbelow (j : UInt32) (hj : j < 1) : w.rx.state.isDone j = true := by
    have hj' := UInt32.lt_iff_toNat_lt.mp hj
    have hj0 : j = 0 := UInt32.toNat_inj.mp (by simpa using hj')
    rw [hj0]; exact hd0
  obtain ⟨out, hout, hnak⟩ :=
    h sampleEnv twoBytes twoBytesSent unusedNode .blank noFaults ms hist w₀ w 1
    unusedNode_fresh hboot (Transfer.wellFormed_small (by simp) (by simp)) emits_twoBytesSent hall
      hok ha ht
    (by rw [htot]; decide) hd1 hbelow noFaults 0 smooth_noFaults
  have hsilent : w.Answers sampleEnv noFaults (eofOf 1 0) [] :=
    ⟨w', ⟨ms', hstep⟩, by rw [List.append_nil]; exact hans⟩
  rw [hsilent.unique hout] at hnak
  exact not_naked_nil hnak

end

/-! ## After a reboot -/

section

variable {env : Env} {x : Transfer} {ok : Node → Action → Prop} {n : Node} {disk : Disk}
  {log : List Event} {hist : List Moment} {o₁ : Oracle} {s : JournalState}
  {cr : ChunkNakRange} {rs : List ChunkNakRange} {raw : Bytes}

theorem total_onBoot {e : Env} {o : Oracle} {w : World} :
    wp (onBoot e o) (fun _ => True) (fun _ _ => True) (fun _ _ => False) w :=
  wp_onBoot (fun _ => trivial) (fun _ _ _ _ => ⟨trivial, fun _ _ => trivial⟩)
    fun _ _ _ _ => ⟨fun _ => total_checkCompletion, fun _ => trivial⟩

/-- Boot recovery runs to its end. -/
theorem boots (env : Env) (disk : Disk) (log : List Event) (garbage : JournalState) (o : Oracle) :
    ∃ ms w, Node.step env (.down disk log) (.boot garbage o none) = some (ms, .up w) ∧
      World.Replied ⟨.construct garbage, disk, log⟩
        ((CfdpReceiver.construct garbage).replyBoot (verifyFileChecksum env o w)
          (World.loaded o ⟨.construct garbage, disk, log⟩)) w := by
  have htotal := total_onBoot (e := env) (o := o) (w := ⟨.construct garbage, disk, log⟩)
  cases hr : (onBoot env o ⟨.construct garbage, disk, log⟩).result with
  | error e => exact (htotal.error hr).elim
  | ok u =>
    refine ⟨((onBoot env o ⟨.construct garbage, disk, log⟩).passed ++
      [(onBoot env o ⟨.construct garbage, disk, log⟩).final]).map .passed,
      (onBoot env o ⟨.construct garbage, disk, log⟩).final, ?_, replies_onBoot.ok hr⟩
    simp only [Node.step, Node.finish, hr, Option.map_some]

/-- A Metadata of the active transaction changes nothing. -/
theorem CfdpReceiver.replyMetadata_again {rx : CfdpReceiver} {m : MetadataPdu}
    (ha : rx.transferActive = true) (ht : rx.state.transactionId = m.transactionId) :
    rx.replyMetadata env o₁ m = (rx, []) := by
  simp [replyMetadata, repeatsAck, accepts, ha, ht]

/-- **After a reboot the sender's timeout round gets its NAK** exactly when the first
missing chunk is chunk 0: the Metadata is ignored, and the Eof is answered by a NAK only
for a chunk seen since the boot. -/
theorem reboot_naked_iff (hn : n.Fresh) (h : Node.Run env ok n hist (.down disk log))
    (hx : x.WellFormed) (hs : JournalState.decode disk.stateBin = some s) (hm : x.Matches env s)
    (hmiss : s.computeMissingChunks = cr :: rs) (garbage : JournalState) (o₂ o₃ : Oracle)
    (ho : o₁.fails .journalOpen = false) (hraw : x.metadataPdu env.crc32 = some raw)
    (checksum : UInt32) :
    ∃ ms w₁ w₂ w₃ out, Node.step env (.down disk log) (.boot garbage o₁ none) = some (ms, .up w₁) ∧
      w₁.Receives env o₂ raw w₂ ∧ w₂.Receives env o₃ (eofOf x.tid checksum) w₃ ∧
      w₃.sent = (Node.down disk log).sent ++ out ∧
      (Naked out x.tid cr.firstChunk (fun pi => pi < x.numPackets cr.firstChunk.toNat) ↔
        cr.firstChunk = 0) := by
  have hsane : JournalAll JournalState.Sane disk := Node.Run.ok hn h
  obtain ⟨ms, w₁, hboot, hrx₁, hsent₁⟩ := boots env disk log garbage o₁
  -- the boot resumes the journal's transfer with nothing seen, and is silent
  have hne : disk.stateBin ≠ none := by
    intro hb
    rw [hb] at hs; cases hs
  obtain ⟨s', -, -, hs', hl⟩ := hsane.loads (w := ⟨.construct garbage, disk, log⟩) hne ho
  rw [hs'] at hs; cases hs
  have hok₁ : w₁.rx.Ok := by
    rw [hrx₁]
    exact CfdpReceiver.Ok.replyBoot (w := ⟨.construct garbage, disk, log⟩) garbage hsane rfl _
  have hnot : ¬ (s.computeMissingChunks = [] ∧ s.eofReceived = true) := by simp [hmiss]
  rw [World.loaded, if_neg hne, hl, CfdpReceiver.replyBoot, if_neg hnot] at hrx₁ hsent₁
  have hst₁ : w₁.rx.state = s := by rw [hrx₁]; rfl
  have ha₁ : w₁.rx.transferActive = true := by rw [hrx₁]; rfl
  have hcur₁ : w₁.rx.currentChunkIndex = uint32Max := by rw [hrx₁]; rfl
  have hmax₁ : w₁.rx.maxChunkSeen = 0 := by rw [hrx₁]; rfl
  -- the Metadata is a duplicate
  obtain ⟨name, -, hd⟩ := Transfer.decodePdu_metadataPdu hraw
  obtain ⟨w₂, hw₂⟩ := receives_pdu env o₂ w₁ hd (by simp)
  have hrep := hw₂.pdu hd
  have hagain : w₁.rx.replyPdu env o₂ (verifyFileChecksum env o₂ w₂)
      (.metadata (x.metadata env.crc32 name)) = (w₁.rx, []) :=
    CfdpReceiver.replyMetadata_again ha₁ (by rw [hst₁]; exact hm.tid)
  unfold World.Replied at hrep
  rw [hagain] at hrep
  obtain ⟨hrx₂, hsent₂⟩ := hrep
  obtain ⟨verified, w₃, hw₃, hsent₃⟩ := answers_eof env o₃ w₂ x.tid checksum
  refine ⟨ms, w₁, w₂, w₃, (w₂.rx.replyEof verified ⟨x.tid, checksum⟩).2, hboot, hw₂, hw₃, ?_, ?_⟩
  · rw [hsent₃, hsent₂, hsent₁, List.append_nil, List.append_nil]; rfl
  obtain ⟨hlt, hopen, hbelow⟩ := JournalState.computeMissingChunks_head hmiss
  have hne' : uint32Max ≠ cr.firstChunk :=
    (CfdpReceiver.ne_uint32Max (UInt32.lt_iff_toNat_lt.mp hlt) hm.sane.totalChunks.2).symm
  have hiff := CfdpReceiver.replyEof_naked_iff hok₁ ha₁ hx (by rw [hst₁]; exact hm)
    (by rw [hst₁]; exact hlt) (by rw [hst₁]; exact hopen) (by rw [hst₁]; exact hbelow) verified checksum
  have hall : (fun pi => pi < x.numPackets cr.firstChunk.toNat ∧ ¬ w₁.rx.Holds cr.firstChunk pi) =
      fun pi => pi < x.numPackets cr.firstChunk.toNat := by
    funext pi
    simp [CfdpReceiver.Holds, hcur₁, hne']
  rw [hall, hcur₁, hmax₁] at hiff
  rw [hrx₂, hiff]
  constructor
  · rintro (he | ⟨-, hle⟩)
    · exact absurd he hne'
    · exact UInt32.toNat_inj.mp (Nat.le_zero.mp hle)
  · intro h0
    exact .inr ⟨rfl, by rw [h0]⟩

/-- The NAK comes if the receiver crashed before it stored anything. -/
theorem reboot_naked_small : ∃ disk log ms w₁ w₂ w₃ out,
    Node.step sampleEnv (.down disk log) powerOn = some (ms, .up w₁) ∧
    w₁.Receives sampleEnv noFaults ((Transfer.small [0x61]).metadataRaw sampleEnv.crc32) w₂ ∧
    w₂.Receives sampleEnv noFaults (eofOf 1 0) w₃ ∧ w₃.sent = (Node.down disk log).sent ++ out ∧
    Naked out 1 0 fun pi => pi < (Transfer.small [0x61]).numPackets 0 := by
  have hrun : (sampleRun [powerOn, deliver ((Transfer.small [0x61]).metadataRaw sampleEnv.crc32),
      .crash]).any (fun r => r.2.world?.isNone && (JournalState.decode r.2.disk.stateBin).any fun s =>
        s.computeMissingChunks.head?.any fun cr => cr.firstChunk == 0) = true := by
    decide +kernel
  simp only [Option.any_eq_true, Bool.and_eq_true, Option.isNone_iff_eq_none, Node.world?_eq_none,
    beq_iff_eq, List.head?_eq_some_iff, Prod.exists] at hrun
  obtain ⟨hist, n, hr, ⟨disk, log, rfl⟩, s, hs, cr, ⟨rs, hmiss⟩, h0⟩ := hrun
  have hok : Node.Run sampleEnv ((Transfer.small [0x61]).Surroundings sampleEnv) unusedNode hist
      (.down disk log) := by
    refine Machine.exec_run hr fun a ha s _ _ => ?_
    simp only [List.mem_cons, List.not_mem_nil, or_false] at ha
    rcases ha with rfl | rfl | rfl
    · exact smooth_noFaults
    · exact ⟨Transfer.emits_metadataRaw (by decide +kernel), smooth_noFaults⟩
    · trivial
  have hinv := (Transfer.Run.nodeInv (by decide) unusedNode_fresh (fun g hg => by cases hg) hok).1
  obtain ⟨ms, w₁, w₂, w₃, out, h1, h2, h3, h4, h5⟩ := reboot_naked_iff unusedNode_fresh hok
    (Transfer.wellFormed_small (by simp) (by simp)) hs (hinv.decode hs).1 hmiss .blank noFaults noFaults
    (smooth_noFaults _) (Transfer.metadataRaw_eq (by decide +kernel)) 0
  exact ⟨disk, log, ms, w₁, w₂, w₃, out, h1, h2, h3, h4, by rw [h0] at h5; exact h5.mpr rfl⟩

/-- A receiver that crashed after chunk 0 is silent after the reboot. -/
theorem not_reboot_naked : ¬ ∀ (env : Env) (x : Transfer) (n : Node) (hist ms : List Moment)
    (disk : Disk) (log : List Event) (s : JournalState) (cr : ChunkNakRange) (rs : List ChunkNakRange)
    (garbage : JournalState) (o₁ o₂ o₃ : Oracle) (w₁ w₂ w₃ : World), n.Fresh →
    Node.Run env (x.Surroundings env) n hist (.down disk log) → x.WellFormed →
    JournalState.decode disk.stateBin = some s → s.transactionId = x.tid →
    s.computeMissingChunks = cr :: rs → o₁.Smooth → o₂.Smooth → o₃.Smooth →
    Node.step env (.down disk log) (.boot garbage o₁ none) = some (ms, .up w₁) →
    w₁.Receives env o₂ (x.metadataRaw env.crc32) w₂ → w₂.Receives env o₃ (x.eofPdu env.crc32) w₃ →
    ∃ out, w₃.sent = (Node.down disk log).sent ++ out ∧
      Naked out x.tid cr.firstChunk fun pi => pi < x.numPackets cr.firstChunk.toNat := by
  intro h
  have hrun : (sampleRun [powerOn, deliver (twoBytes.metadataRaw sampleEnv.crc32),
      deliver (twoBytes.packetRaw 0 0), .crash]).any (fun r => r.2.world?.isNone &&
        (JournalState.decode r.2.disk.stateBin).any (fun s =>
          s.transactionId == 1 && !s.computeMissingChunks.isEmpty) &&
        (r.2.next sampleEnv powerOn).any fun w₁ =>
          ((Node.up w₁).next sampleEnv (deliver (twoBytes.metadataRaw sampleEnv.crc32))).any fun w₂ =>
            ((Node.up w₂).next sampleEnv (deliver (twoBytes.eofPdu sampleEnv.crc32))).any fun w₃ =>
              decide (w₃.sent = r.2.sent)) = true := by
    decide +kernel
  simp only [Option.any_eq_true, Bool.and_eq_true, Option.isNone_iff_eq_none, Node.world?_eq_none,
    Node.next_eq_some, beq_iff_eq, Bool.not_eq_true', List.isEmpty_eq_false_iff, decide_eq_true_eq,
    Prod.exists] at hrun
  obtain ⟨hist, n, hr, ⟨⟨disk, log, rfl⟩, s, hs, ht, hne⟩, w₁, ⟨ms, hboot⟩, w₂, hw₂, w₃, hw₃, hsame⟩ := hrun
  have hok : Node.Run sampleEnv (twoBytes.Surroundings sampleEnv) unusedNode hist (.down disk log) := by
    refine Machine.exec_run hr fun a ha s _ _ => ?_
    simp only [List.mem_cons, List.not_mem_nil, or_false] at ha
    rcases ha with rfl | rfl | rfl | rfl
    · exact smooth_noFaults
    · exact ⟨emits_twoBytesSent _ (by simp [twoBytesSent]), smooth_noFaults⟩
    · exact ⟨emits_twoBytesSent _ (by simp [twoBytesSent]), smooth_noFaults⟩
    · trivial
  obtain ⟨cr, rs, hmiss⟩ := List.exists_cons_of_ne_nil hne
  obtain ⟨out, hout, hnak⟩ := h sampleEnv twoBytes unusedNode hist ms disk log s cr rs .blank
    noFaults noFaults noFaults w₁ w₂ w₃ unusedNode_fresh hok
    (Transfer.wellFormed_small (by simp) (by simp)) hs ht hmiss smooth_noFaults smooth_noFaults
    smooth_noFaults hboot hw₂ hw₃
  rw [hsame] at hout
  rw [List.self_eq_append_right.mp hout] at hnak
  exact not_naked_nil hnak

end

end Cfdp
