import Cfdp.Missing
import Cfdp.Noise
import Cfdp.Survival

/-!
# What the sender is told is true

The receiver tells the sender only what its record says (`Vouches`), and what the record says
is in the destination file. So every ACK and every ResumeInfo that was ever transmitted is
true of the file from then on (`run_told`), at every moment of a handler too: an answer that
is still on its way when the receiver crashes is true when it arrives.
-/

namespace Cfdp

open Crash Prog Machine LittleEndian

/-! ## What the record vouches for -/

/-- The record allows to transmit `pdu`: a NAK, the ACK of a chunk marked done, a final ACK. -/
inductive CfdpReceiver.Vouches (rx : CfdpReceiver) : Bytes → Prop where
  | nak {pdu : Bytes} (h : isNak pdu = true) : Vouches rx pdu
  | chunk (t : UInt32) {ci : UInt32} (h : rx.state.isDone ci = true) : Vouches rx (AckPdu.raw ⟨t, ci⟩)
  | final (t : UInt32) : Vouches rx (AckPdu.raw ⟨t, uint32Max⟩)

/-- What `y` has transmitted beyond `w`, its record vouches for. -/
def World.Says (w y : World) : Prop := ∀ pdu ∈ y.sent, pdu ∈ w.sent ∨ y.rx.Vouches pdu

namespace CfdpReceiver

variable {rx rx' : CfdpReceiver} {pdu : Bytes} {ci : UInt32}

theorem Vouches.mono (h : rx.Vouches pdu)
    (hm : ∀ ci, rx.state.isDone ci = true → rx'.state.isDone ci = true) : rx'.Vouches pdu := by
  cases h with
  | nak h => exact .nak h
  | chunk t h => exact .chunk t (hm _ h)
  | final t => exact .final t

theorem packetNak_isNak (h : rx.packetNak = some pdu) : isNak pdu = true := by
  obtain ⟨rfl, -⟩ := packetNak_eq h
  rfl

theorem leaveNak_isNak (h : rx.leaveNak ci = some pdu) : isNak pdu = true := by
  unfold leaveNak at h
  split at h
  · exact packetNak_isNak h
  · cases h

theorem completion_isNak (h : rx.completion = .nak pdu) : isNak pdu = true := by
  rcases rx.completionCase with ⟨-, hc⟩ | ⟨-, -, hc⟩ | ⟨-, -, cr, -, hc⟩ | ⟨-, -, -, -, hc⟩ | ⟨-, -, -, hc⟩
  · rw [hc] at h
    cases h
  · rw [hc] at h
    split at h
    · next hp => cases h; exact packetNak_isNak hp
    · cases h
  · rw [hc] at h
    cases h
    rfl
  · rw [hc] at h
    cases h
  · rw [hc] at h
    cases h

end CfdpReceiver

section

variable {env : Env} {o : Oracle} {w y y' : World} {raw pdu : Bytes} {ci : UInt32}

theorem says_of_sent (h : y.sent = w.sent) : w.Says y := fun _ hpdu => .inl (h ▸ hpdu)

/-- Nothing more is transmitted, and nothing is unmarked. -/
theorem World.Says.mono (h : w.Says y) (hs : y'.sent = y.sent)
    (hm : ∀ ci, y.rx.state.isDone ci = true → y'.rx.state.isDone ci = true) : w.Says y' := by
  intro pdu hpdu
  rw [hs] at hpdu
  exact (h pdu hpdu).imp_right fun hv => hv.mono hm

theorem World.Says.alike (h : w.Says y) (ha : y.Alike y') : w.Says y' :=
  h.mono ha.2.1 fun ci hd => by rw [ha.1]; exact hd

theorem World.Says.send (h : w.Says y) (hv : y.rx.Vouches pdu) : w.Says (y.send pdu) := by
  intro p hp
  rw [World.sent_send] at hp
  rcases List.mem_append.mp hp with hp | hp
  · exact h p hp
  · rw [List.mem_singleton.mp hp]
    exact .inr hv

theorem World.Says.dropJournal (h : w.Says y) : w.Says y.dropJournal :=
  h.mono (World.sent_dropJournal y) fun _ hd => hd

/-- A program that, started in `y`, says nothing beyond `w` but what the record vouches for. -/
abbrev KeepsSays (p : M Unit) (w y : World) : Prop :=
  wp p w.Says (fun _ => w.Says) (fun _ => w.Says) y

theorem says_checkCompletion (h : w.Says y) : KeepsSays (checkCompletion env o) w y := by
  have hstop (x : World) (hx : w.Says x) : w.Says (x.setRx CfdpReceiver.deactivate) :=
    hx.mono rfl fun _ hd => hd
  refine wp_checkCompletion (fun _ => h) (fun pdu hp => ?_) (fun _ _ => ?_) fun _ _ => ?_
  · have hsend := h.send (.nak (CfdpReceiver.completion_isNak hp))
    exact ⟨hsend, hsend⟩
  · exact ⟨fun _ => (hstop y h).dropJournal, fun w' hr => (hstop y h).alike hr.alike⟩
  · have hset : w.Says (y.setRx fun rx => { rx with lastAckedId := rx.state.transactionId }) :=
      h.mono rfl fun _ hd => hd
    have hack : w.Says y.finalAck := hset.send (.final _)
    exact ⟨hack, fun _ => (hstop _ hack).dropJournal, fun w' hr => (hstop _ hack).alike hr.alike⟩

theorem says_flushChunk (h : w.Says y) (hci : ci.toNat < y.rx.state.chunkDone.length) :
    KeepsSays (flushChunk env o ci) w y := by
  refine wp_flushChunk (fun c _ => h.mono rfl fun _ hd => hd) (fun _ e c _ => h.mono rfl fun _ hd => hd)
    fun base _ => ?_
  have hmark : w.Says (y.wroteChunk ci base) := h.mono rfl fun _ hd => isDone_markDone_of hd ci
  have hdone : (y.wroteChunk ci base).rx.state.isDone ci = true := by
    show (y.rx.state.markDone ci).isDone ci = true
    rw [JournalState.isDone_markDone _ _ _ hci, decide_eq_true rfl, Bool.true_or]
  refine ⟨fun t => hmark.mono rfl fun _ hd => hd,
    fun s s' _ _ => hmark.mono (World.sent_commit _ _ _) fun _ hd => hd, fun w' hu => ?_⟩
  have hack : w.Says (w'.send (AckPdu.raw ⟨w'.rx.state.transactionId, ci⟩)) := by
    refine (hmark.alike hu.alike).send (.chunk _ ?_)
    rw [hu.alike.1]
    exact hdone
  have hclear : w.Says ((w'.send (AckPdu.raw ⟨w'.rx.state.transactionId, ci⟩)).setRx
      CfdpReceiver.clearList) := hack.mono rfl fun _ hd => hd
  exact ⟨hack, fun _ => says_checkCompletion hclear, fun _ => hclear⟩

/-- **A handler says what its record vouches for**, at every moment, whatever fails; only the
answer to a ResumeQuery is of another kind. -/
theorem says_onPduReceived (hs : w.rx.transferActive = true → w.rx.state.Sane)
    (hq : ∀ q, decodePdu raw ≠ some (.resumeQuery q)) : KeepsSays (onPduReceived env o raw) w w := by
  have h : w.Says w := says_of_sent rfl
  rw [onPduReceived]
  cases hd : decodePdu raw with
  | none => exact (wp_pure ()).mpr h
  | some pdu =>
    cases pdu with
    | metadata m =>
      refine wp_handleMetadata (fun _ _ => h) (fun _ => ?_) fun _ => ?_
      · exact ⟨h.send (.final _), h.send (.final _)⟩
      refine ⟨fun _ => h.dropJournal, ?_⟩
      rintro w₁ hr w₂ rfl
      have hsent : w₁.sent = w.sent := hr.alike.2.1
      refine ⟨fun t => says_of_sent hsent, says_of_sent ?_, fun w₃ hc => says_of_sent ?_⟩
      · rw [World.sent_commit]
        exact hsent
      · exact (hc.alike.2.1).trans hsent
    | data d =>
      refine wp_handleData (fun _ => h) (fun hacc hdone => ?_) fun hacc _ => ?_
      · rintro w₁ rfl
        have hsee : w.Says (w.setRx (CfdpReceiver.see d.chunkIndex)) := says_of_sent rfl
        have hack : w.Says ((w.setRx (CfdpReceiver.see d.chunkIndex)).send
            (AckPdu.raw ⟨w.rx.state.transactionId, d.chunkIndex⟩)) := by
          refine hsee.send (.chunk _ ?_)
          rw [World.setRx_rx, CfdpReceiver.see_state]
          exact hdone
        exact ⟨fun _ => ⟨hack, hack⟩, fun _ => hsee⟩
      have ha := CfdpReceiver.acceptsData_iff.mp hacc
      have hsee : w.Says (w.setRx (CfdpReceiver.see d.chunkIndex)) := says_of_sent rfl
      refine ⟨fun pdu hp => hsee.send (.nak (CfdpReceiver.leaveNak_isNak hp)), ?_⟩
      rintro w₁ rfl
      have htake : w.Says ((w.sendOption (w.rx.leaveNak d.chunkIndex)).setRx (CfdpReceiver.take d)) := by
        have hsend : w.Says (w.sendOption (w.rx.leaveNak d.chunkIndex)) := by
          cases hl : w.rx.leaveNak d.chunkIndex with
          | none => exact h
          | some pdu => exact h.send (.nak (CfdpReceiver.leaveNak_isNak hl))
        refine hsend.mono rfl fun ci hdone => ?_
        rw [World.sendOption_rx] at hdone
        rw [World.setRx_rx, World.sendOption_rx, CfdpReceiver.take_state]
        exact hdone
      refine ⟨fun _ => says_flushChunk htake ?_, fun _ => htake⟩
      rw [World.setRx_rx, World.sendOption_rx, CfdpReceiver.take_state, (hs ha.active).flags]
      exact ha.chunk
    | eof e =>
      refine wp_handleEof (fun _ => h) (fun _ _ => says_checkCompletion h) fun _ _ => ?_
      refine ⟨fun t => h.mono rfl fun _ hd => hd, fun s _ => h.mono (World.sent_commit _ _ _)
        fun _ hd => hd, fun w' hu => says_checkCompletion ?_⟩
      exact (h.alike hu.alike).mono rfl fun _ hd => hd
    | resumeQuery q => exact absurd hd (hq q)

theorem says_onBoot : KeepsSays (onBoot env o) w w := by
  refine wp_onBoot (fun _ => says_of_sent rfl) (fun _ _ => ?_) fun _ _ => ?_
  · rintro w₁ rfl
    exact ⟨says_of_sent (World.sent_dropJournal _), fun w' hr => says_of_sent hr.alike.2.1⟩
  · rintro w₁ rfl
    exact ⟨fun _ => says_checkCompletion (says_of_sent rfl), fun _ => says_of_sent rfl⟩

end

/-! ## What is true of the file -/

namespace Transfer

variable {env : Env} {x : Transfer} {o : Oracle} {w y : World} {raw pdu : Bytes} {c c' : Option Bytes}
  {rx : CfdpReceiver}

/-- The sender can read `pdu`, and what it reads holds of the destination `c`. -/
structure Backed (x : Transfer) (c : Option Bytes) (pdu : Bytes) : Prop where
  nonempty : pdu ≠ []
  final : acksChunk ackFinal pdu = true → c = some x.file
  chunk : ∀ ci, ci ≠ ackFinal → acksChunk ci pdu = true → x.ChunkStored c ci
  info : pdu.head? = some PduType.resumeInfo.code → ∀ ci, ci < x.totalChunks →
    ci < (rd32 (pdu.drop 5)).toNat → x.ChunkStored c ci

theorem Backed.mono (h : x.Backed c pdu) (he : x.Extends c c') : x.Backed c' pdu where
  nonempty := h.nonempty
  final ha := he.same (h.final ha)
  chunk ci hne ha := he.stored ci (h.chunk ci hne ha)
  info hi ci hlt hci := he.stored ci (h.info hi ci hlt hci)

theorem acksChunk_head {ci : Nat} (h : acksChunk ci pdu = true) :
    pdu.head? = some PduType.ack.code := by
  simp only [acksChunk, Bool.and_eq_true, beq_iff_eq] at h
  exact h.1.1

theorem backed_nak (h : isNak pdu = true) : x.Backed c pdu := by
  have hcode : pdu.head? = some PduType.nak.code := by simpa [isNak] using h
  have hack (ci : Nat) : acksChunk ci pdu = false := by
    unfold acksChunk
    rw [hcode]
    rfl
  refine ⟨fun hnil => ?_, fun ha => ?_, fun ci _ ha => ?_, fun hi => ?_⟩
  · rw [hnil] at hcode
    cases hcode
  · rw [hack] at ha
    cases ha
  · rw [hack] at ha
    cases ha
  · rw [hcode] at hi
    cases hi

theorem backed_ack {t k : UInt32} (hf : k = uint32Max → c = some x.file)
    (hc : k ≠ uint32Max → x.ChunkStored c k.toNat) : x.Backed c (AckPdu.raw ⟨t, k⟩) where
  nonempty := List.cons_ne_nil _ _
  final ha := by
    rw [acksChunk_raw, beq_iff_eq] at ha
    exact hf (UInt32.toNat_inj.mp ha)
  chunk ci hne ha := by
    rw [acksChunk_raw, beq_iff_eq] at ha
    subst ha
    exact hc fun he => hne (by rw [he]; rfl)
  info hi := by cases hi

theorem backed_info {t N : UInt32} (h : ∀ ci, ci < x.totalChunks → ci < N.toNat → x.ChunkStored c ci) :
    x.Backed c (ResumeInfoPdu.raw ⟨t, N⟩) where
  nonempty := List.cons_ne_nil _ _
  final ha := absurd (acksChunk_head ha) (not_isAck_info _)
  chunk ci _ ha := absurd (acksChunk_head ha) (not_isAck_info _)
  info _ ci hlt hci := by
    have hN : rd32 ((ResumeInfoPdu.raw ⟨t, N⟩).drop 5) = N := rd32_le32' N
    rw [hN] at hci
    exact h ci hlt hci

/-- What the record vouches for is in the file. -/
theorem Held.backed_of_vouches {rest : Bytes} {since : Nat} (h : Held env x rest since y)
    (hv : y.rx.Vouches pdu) (hf : IsFinalAck pdu → y.disk.files (x.path env) = some x.file) :
    x.Backed (y.disk.files (x.path env)) pdu := by
  cases hv with
  | nak hn => exact backed_nak hn
  | @chunk t k hd =>
    refine backed_ack (fun hk => hf ?_) fun _ => h.marks k hd
    rw [hk]
    exact isFinalAck_raw t
  | final t => exact backed_ack (fun _ => hf (isFinalAck_raw t)) fun hne => absurd rfl hne

/-- So is what a ResumeInfo says. -/
theorem Held.backed_answer {rest : Bytes} {since : Nat} (h : Held env x rest since w) (t : UInt32) :
    x.Backed (w.disk.files (x.path env)) (ResumeInfoPdu.raw ⟨t, firstMissingChunk w.rx t⟩) := by
  refine backed_info fun ci hlt hci => ?_
  have hnat : (UInt32.ofNat ci).toNat = ci := by
    have := (firstMissingChunk w.rx t).toNat_lt
    rw [UInt32.toNat_ofNat', Nat.mod_eq_of_lt (by omega)]
  have hactive : w.rx.transferActive = true ∧ w.rx.state.transactionId = t := by
    by_contra hno
    have hzero : firstMissingChunk w.rx t = 0 := by
      unfold firstMissingChunk
      rw [if_pos]
      rw [Bool.or_eq_true, Bool.not_eq_true', bne_iff_ne]
      by_cases ha : w.rx.transferActive = true
      · exact .inr fun ht => hno ⟨ha, ht⟩
      · exact .inl (by simpa using ha)
    rw [hzero] at hci
    exact absurd hci (Nat.not_lt_zero ci)
  obtain ⟨ha, rfl⟩ := hactive
  have hdone : w.rx.state.isDone (UInt32.ofNat ci) = true := by
    obtain ⟨hall, hsome⟩ := firstMissingChunk_active ha
    by_cases hmax : firstMissingChunk w.rx w.rx.state.transactionId = uint32Max
    · refine hall.mp hmax _ ?_
      rw [UInt32.lt_iff_toNat_lt, hnat, (h.record ha).totalChunks]
      exact hlt
    · refine (hsome hmax).2.2 _ ?_
      rw [UInt32.lt_iff_toNat_lt, hnat]
      exact hci
  have hstored := h.marks _ hdone
  rwa [hnat] at hstored

/-- A tolerated PDU only adds to the file. -/
theorem Held.extends {rest : Bytes} {since : Nat} (h : Held env x rest since w) (hx : x.WellFormed)
    (ho : o.Smooth) (ht : x.Tolerates env w.rx raw) :
    wp (Cfdp.onPduReceived env o raw)
      (fun y => x.Extends (w.disk.files (x.path env)) (y.disk.files (x.path env)))
      (fun _ y => x.Extends (w.disk.files (x.path env)) (y.disk.files (x.path env)))
      (fun _ y => x.Extends (w.disk.files (x.path env)) (y.disk.files (x.path env))) w := by
  have hlen : 0 < x.file.length := List.length_pos_of_ne_nil hx.file
  have hflush (d : DataPdu) (c : Option Bytes) (hf : w.Flushes raw d)
      (hst : Stage o w.disk.files w.dest w.rx.state.fileSize (w.chunkOffset d) (w.chunkData d) c)
      (files : Bytes → Option Bytes) (he : files = w.withDest c) :
      x.Extends (w.disk.files (x.path env)) (files (x.path env)) := by
    have hacc := hf.2.accepts
    have ha := CfdpReceiver.acceptsData_iff.mp hacc
    have hrec := h.record ha.active
    have hlt := ha.chunk
    rw [hrec.totalChunks] at hlt
    have hslots := h.take (ht.stores d hf.1 hacc hf.2.open_)
      (by rw [ha.packets, hrec.expectedPkts hx hlt]) ha
    have hdata := hslots.assemble hx.packetSize.1 hf.2.complete
    have hdest : w.dest = x.path env := hrec.path
    rw [World.chunkData, hdata, World.chunkOffset, (hrec.offset ha.chunk).1, hdest] at hst
    rw [he, ← hdest, World.withDest_dest, hdest]
    exact extends_stage ho hrec.fileSize hlen hst
  refine wp_mono (wp_files raw) ?_ ?_ ?_
  · rintro y (he | ⟨d, hf, c, hst, he⟩)
    · rw [he]
      exact extends_refl x _
    · exact hflush d c hf hst _ he
  · rintro - y (⟨he, -⟩ | ⟨d, hf, base, hb, he⟩)
    · rw [he]
      exact extends_refl x _
    · refine hflush d _ hf (.inr ⟨base, (w.chunkData d).length, hb, rfl⟩) _ ?_
      rw [List.take_length]
      exact he
  · rintro - y ⟨d, hf, ⟨c, hst, he⟩, -⟩
    exact hflush d c hf hst _ he

/-! ## Every run -/

/-- All that was ever transmitted is true of the file. -/
def Told (env : Env) (x : Transfer) (disk : Disk) (sent : List Bytes) : Prop :=
  ∀ pdu ∈ sent, x.Backed (disk.files (x.path env)) pdu

/-- What was transmitted before stays true, and what the record vouches for is. -/
theorem Told.says (ht : x.Told env w.disk w.sent) (h : Held env x [] 0 y) (hs : w.Says y)
    (he : x.Extends (w.disk.files (x.path env)) (y.disk.files (x.path env))) :
    x.Told env y.disk y.sent := by
  intro pdu hpdu
  rcases hs pdu hpdu with hold | hv
  · exact (ht pdu hold).mono he
  · exact h.backed_of_vouches hv fun hf => h.final pdu hf (World.mem_sent.mp hpdu)

theorem Told.onPduReceived (ht : x.Told env w.disk w.sent) (h : Inv env x 0 w) (hx : x.WellFormed)
    (ho : o.Smooth) (htol : x.Tolerates env w.rx raw) :
    wp (Cfdp.onPduReceived env o raw) (fun y => x.Told env y.disk y.sent)
      (fun _ y => x.Told env y.disk y.sent) (fun _ _ => False) w := by
  have hheld := inv_iff.mp h
  by_cases hq : ∃ q, decodePdu raw = some (.resumeQuery q)
  · obtain ⟨q, hq⟩ := hq
    have htold : x.Told env w.disk (w.sent ++
        [ResumeInfoPdu.raw ⟨q.transactionId, firstMissingChunk w.rx q.transactionId⟩]) := by
      intro pdu hpdu
      rcases List.mem_append.mp hpdu with hpdu | hpdu
      · exact ht pdu hpdu
      · rw [List.mem_singleton.mp hpdu]
        exact hheld.backed_answer q.transactionId
    rw [← World.sent_send] at htold
    rw [Cfdp.onPduReceived, hq]
    exact wp_handleResumeQuery.mpr ⟨htold, htold⟩
  · have hsays := @says_onPduReceived env o w raw (fun ha => (hheld.record ha).sane)
      fun q hd => hq ⟨q, hd⟩
    refine wp_mono (wp_and (wp_and (hheld.tolerates hx (.inl rfl) ho htol) hsays)
      (hheld.extends hx ho htol)) ?_ ?_ ?_
    · rintro y ⟨⟨hy, hs⟩, he⟩
      exact ht.says hy hs he
    · rintro - y ⟨⟨hy, hs⟩, he⟩
      exact ht.says hy hs he
    · rintro - y ⟨⟨hf, -⟩, -⟩
      exact hf

theorem Told.onBoot {disk : Disk} {log : List Event} {garbage : JournalState}
    (ht : x.Told env disk (Node.down disk log).sent) (h : Stored env x 0 disk log) (htid : x.tid ≠ 0)
    (ho : o.Smooth) :
    wp (Cfdp.onBoot env o) (fun y => x.Told env y.disk y.sent)
      (fun _ y => x.Told env y.disk y.sent) (fun _ _ => False) ⟨.construct garbage, disk, log⟩ := by
  have hfiles (y : World) (hy : y.disk.files = disk.files) :
      x.Extends (disk.files (x.path env)) (y.disk.files (x.path env)) := by
    rw [hy]
    exact extends_refl x _
  have htold : x.Told env (⟨.construct garbage, disk, log⟩ : World).disk
      (⟨.construct garbage, disk, log⟩ : World).sent := ht
  have hsays := @says_onBoot env o ⟨.construct garbage, disk, log⟩
  have hheld := (stored_iff.mp h).onBoot (.inl rfl) ho htid garbage
  refine wp_mono (wp_and (wp_and hheld hsays) keepsFiles_onBoot) ?_ ?_ ?_
  · rintro y ⟨⟨hy, hs⟩, hf⟩
    exact htold.says hy hs (hfiles y hf)
  · rintro - y ⟨⟨hy, hs⟩, hf⟩
    exact htold.says hy hs (hfiles y hf)
  · rintro - y ⟨⟨hf, -⟩, -⟩
    exact hf

/-- The invariant of the transfer, and that what was transmitted is true. -/
def Faithful (env : Env) (x : Transfer) (n : Node) : Prop :=
  NodeInv env x 0 n ∧ x.Told env n.disk n.sent

theorem Faithful.step {n n' : Node} {a : Action} {ms : List Moment} (h : x.Faithful env n)
    (hx : x.WellFormed) (ha : x.Noisy env n a) (hs : Node.step env n a = some (ms, n')) :
    x.Faithful env n' ∧ ∀ w, .passed w ∈ ms → x.Told env w.disk w.sent := by
  refine Node.inv_step (I := x.Faithful env) (J := fun w => x.Told env w.disk w.sent)
    (fun w raw o cut hw ha => ?_) (fun w hw => ⟨hw.1.toStored, hw.2⟩)
    (fun disk log garbage o cut hd ha => ?_) h ha hs
  · have hheld := (inv_iff.mp hw.1).tolerates hx (.inl rfl) ha.2 ha.1
    refine wp_mono (wp_and hheld (hw.2.onPduReceived hw.1 hx ha.2 ha.1)) ?_ ?_ ?_
    · rintro y ⟨hy, ht⟩
      exact ⟨ht, (inv_iff.mpr hy).toStored, ht⟩
    · rintro - y ⟨hy, ht⟩
      exact ⟨ht, inv_iff.mpr hy, ht⟩
    · rintro - y ⟨hf, -⟩
      exact hf.elim
  · have hheld := (stored_iff.mp hd.1).onBoot (.inl rfl) ha hx.tid garbage
    refine wp_mono (wp_and hheld (hd.2.onBoot hd.1 hx.tid ha)) ?_ ?_ ?_
    · rintro y ⟨hy, ht⟩
      exact ⟨ht, (inv_iff.mpr hy).toStored, ht⟩
    · rintro - y ⟨hy, ht⟩
      exact ⟨ht, inv_iff.mpr hy, ht⟩
    · rintro - y ⟨hf, -⟩
      exact hf.elim

theorem faithful_fresh {n : Node} (hn : n.Fresh) (hd : x.Fits (n.disk.files (x.path env))) :
    x.Faithful env n := by
  refine ⟨stored_fresh hn hd, fun pdu hpdu => ?_⟩
  cases n with
  | up w => exact hn.elim
  | down disk log =>
    obtain ⟨-, rfl⟩ := hn
    cases hpdu

/-- **Whatever the receiver has told the sender is true of the destination file, from then on.**
In every run over PDUs that are tolerated where they arrive, lost, repeated or reordered as they
may be, and wherever the receiver crashes: a chunk that was ever acknowledged is in the file, so is
every chunk before the one a ResumeInfo names, and after a final ACK the file is the source file. -/
theorem run_told {n n' : Node} {hist : List Moment} (hx : x.WellFormed) (hn : n.Fresh)
    (hd : x.Fits (n.disk.files (x.path env))) (h : Node.Run env (x.Noisy env) n hist n') :
    (∀ w, .passed w ∈ hist → x.Told env w.disk w.sent) ∧ x.Told env n'.disk n'.sent := by
  have hinv := h.inv_moments (I := x.Faithful env)
    (J := fun m => ∀ w, m = .passed w → x.Told env w.disk w.sent) (faithful_fresh hn hd) ?_
  · exact ⟨fun w hm => hinv.2 _ hm w rfl, hinv.1.2⟩
  · intro n a ms n' hi ha hs
    obtain ⟨h1, h2⟩ := hi.step hx ha hs
    exact ⟨h1, fun m hm w hw => h2 w (hw ▸ hm)⟩

/-- The receiver acknowledges a chunk and crashes: the chunk is in the file. -/
theorem run_told_crash : ∃ hist n', Node.Run sampleEnv ((small [0x61]).Noisy sampleEnv) unusedNode hist n' ∧
    n'.world? = none ∧ (small [0x61]).ChunkStored (n'.disk.files ((small [0x61]).path sampleEnv)) 0 := by
  have hx : (small [0x61]).WellFormed := wellFormed_small (by simp) (by simp)
  have hrun : (sampleRun [powerOn, deliver ((small [0x61]).metadataRaw sampleEnv.crc32),
      deliver ((small [0x61]).packetRaw 0 0), .crash]).any (fun r => r.2.world?.isNone &&
        decide (AckPdu.raw ⟨1, 0⟩ ∈ r.2.sent)) = true := by
    decide +kernel
  simp only [Option.any_eq_true, Prod.exists, Bool.and_eq_true, decide_eq_true_eq,
    Option.isNone_iff_eq_none] at hrun
  obtain ⟨hist, n', hr, hnone, hack⟩ := hrun
  have hemits {n : Node} {raw : Bytes} (h : (small [0x61]).Emits sampleEnv.crc32 raw) :
      (small [0x61]).Noisy sampleEnv n (deliver raw) := by
    cases n with
    | up w => exact ⟨tolerates_emits hx w.rx h, smooth_noFaults⟩
    | down disk log => exact ⟨trivial, smooth_noFaults⟩
  have hok : Node.Run sampleEnv ((small [0x61]).Noisy sampleEnv) unusedNode hist n' := by
    refine Machine.exec_run hr fun a ha s _ _ => ?_
    simp only [List.mem_cons, List.not_mem_nil, or_false] at ha
    rcases ha with rfl | rfl | rfl | rfl
    · cases s with
      | up w => exact smooth_noFaults
      | down disk log => exact smooth_noFaults
    · exact hemits (emits_metadataRaw (by decide +kernel))
    · exact hemits (emits_packetRaw (by decide +kernel))
    · cases s with
      | up w => trivial
      | down disk log => trivial
  obtain ⟨-, htold⟩ := run_told hx unusedNode_fresh (fun g hg => by cases hg) hok
  exact ⟨hist, n', hok, hnone, (htold _ hack).chunk 0 (by decide) (acksChunk_raw 1 0 0)⟩

end Transfer

end Cfdp
