import Cfdp.Retransmission
import Cfdp.System
import Cfdp.Wire

/-!
# The transfer can always be completed

From every state that sessions of one transfer can reach, whatever was lost, repeated or
delayed and wherever the receiver crashed, there is a way on to the end: a new session whose
PDUs arrive returns, and leaves the file in place (`exists_return`). So no interleaving leaves
the receiver in a state that a later session cannot get out of.

The way on is the session of `session_completes`, move by move, with the sender's reactions:
`reaches_rounds` takes the sender from chunk to chunk.
-/

namespace Cfdp

open Crash Prog Machine LittleEndian

namespace Transfer

variable {env : Env} {x : Transfer} {o : Oracle} {w : World} {ci : Nat}

/-! ## A chunk as the sender transmits it -/

/-- All packets of a chunk in order, then the Eof. -/
theorem WellFormed.sendChunk_eq (hx : x.WellFormed) (crc32 : UInt32 → Bytes → UInt32)
    (hc : ci < x.totalChunks) : x.sendChunk crc32 ci =
      ((List.range (x.numPackets ci)).map (x.packetRaw ci) ++ [x.eofPdu crc32], .chunk ci) := by
  have hsome : ∀ pdus : List Bytes, pdus.map some ++ [some (x.eofPdu crc32)] =
      (pdus ++ [x.eofPdu crc32]).map some := fun pdus => by rw [List.map_append]; rfl
  unfold sendChunk
  rw [if_pos hc, hx.oneChunk hc, hsome, sendAll_map_some]

/-- That round, with the outcomes `o` of the calls it makes. -/
def plainRound (x : Transfer) (o : Oracle) (ci : Nat) : Round where
  packets := (List.range (x.numPackets ci)).map fun pi => ⟨ci, pi, o⟩
  eof := o

theorem plainRound_deliveries (hx : x.WellFormed) (env : Env) (o : Oracle) (hc : ci < x.totalChunks) :
    (x.plainRound o ci).deliveries env x = (x.sendChunk env.crc32 ci).1.map fun raw => (raw, o) := by
  rw [hx.sendChunk_eq env.crc32 hc]
  simp only [Round.deliveries, plainRound, List.map_append, List.map_map, List.map_cons, List.map_nil]
  rfl

theorem packets_of_chunk (ho : o.Smooth) (hc : ci < x.totalChunks) {ss : List Sending}
    (h : ∀ s ∈ ss, s.o = o ∧ s.chunk = ci ∧ s.packet < x.numPackets ci) :
    x.Packets env ci w ss := by
  induction ss generalizing w with
  | nil => trivial
  | cons s ss ih =>
    obtain ⟨h1, h2, h3⟩ := h s List.mem_cons_self
    refine ⟨by rw [h1]; exact ho, by rw [h2]; exact hc, by rw [h2]; exact h3, .inl h2, ?_⟩
    exact fun w' _ => ih fun t ht => h t (List.mem_cons_of_mem s ht)

theorem isRound_plainRound (ho : o.Smooth) (hc : ci < x.totalChunks) :
    x.IsRound env ci w (x.plainRound o ci) where
  packets := by
    refine packets_of_chunk ho hc fun s hs => ?_
    obtain ⟨pi, hpi, rfl⟩ := List.mem_map.mp hs
    exact ⟨rfl, rfl, List.mem_range.mp hpi⟩
  all pi hpi := ⟨⟨ci, pi, o⟩, List.mem_map.mpr ⟨pi, List.mem_range.mpr hpi, rfl⟩, rfl, rfl⟩
  eof := ho

theorem areRounds_plainRound (ho : o.Smooth) {k : Nat} (hk : ci + k ≤ x.totalChunks) :
    x.AreRounds env ci w ((List.range' ci k).map (x.plainRound o)) := by
  induction k generalizing ci w with
  | zero => trivial
  | succ k ih => exact ⟨isRound_plainRound ho (by omega), fun _ _ => ih (by omega)⟩

/-- What a session transmits after the answer `N`, if every chunk is acknowledged. -/
def remaining (crc32 : UInt32 → Bytes → UInt32) (x : Transfer) (N : UInt32) : List Bytes :=
  if N = uint32Max then [x.eofPdu crc32]
  else (List.range' N.toNat (x.totalChunks - N.toNat)).flatMap fun ci => (x.sendChunk crc32 ci).1

theorem remaining_eq (hx : x.WellFormed) (env : Env) (o : Oracle) {N : UInt32} (hN : N ≠ uint32Max) :
    (x.remaining env.crc32 N).map (fun raw => (raw, o)) =
      ((List.range' N.toNat (x.totalChunks - N.toNat)).map (x.plainRound o)).flatMap
        (Round.deliveries env x) := by
  have hround : ∀ ci ∈ List.range' N.toNat (x.totalChunks - N.toNat),
      (x.sendChunk env.crc32 ci).1.map (fun raw => (raw, o)) =
        (x.plainRound o ci).deliveries env x := by
    intro ci hci
    have hrange := List.mem_range'_1.mp hci
    exact (plainRound_deliveries hx env o (by omega)).symm
  unfold remaining
  rw [if_neg hN, List.map_flatMap, List.flatMap_map, List.flatMap_congr hround]

/-- A session without losses completes the transfer, from any state of its invariant. -/
theorem Live.session (hl : x.Live env w) (hx : x.WellFormed) (hc : Crc.Composes env.crc32)
    (ho : o.Smooth) (hs : w.rx.transferActive = true ∨ w.rx.lastAckedId ≠ x.tid) :
    ∃ w₀ N, w.receiveAll env [(x.metadataRaw env.crc32, o), (x.queryPdu, o)] = some w₀ ∧
      w₀.sent = w.sent ++ [ResumeInfoPdu.raw ⟨x.tid, N⟩] ∧
      ∃ w' out, w₀.receiveAll env ((x.remaining env.crc32 N).map fun raw => (raw, o)) = some w' ∧
        w'.sent = w₀.sent ++ out ∧ x.Completed env w' out := by
  obtain ⟨w₁, hw₁, hl₁, hsent₁, ha₁⟩ := hl.opens hx hc ho hs
  obtain ⟨w₀, N, hw₀, hl₀, hsent₀, hrx₀, hN⟩ := hl₁.queried hx hc ho ha₁
  rw [← hrx₀] at ha₁ hN
  refine ⟨w₀, N, ?_, by rw [hsent₀, hsent₁], ?_⟩
  · rw [World.receiveAll_cons, hw₁, Option.bind_some, World.receiveAll_cons, hw₀]
    rfl
  rcases hN with ⟨rfl, hm⟩ | ⟨hne, hlt, hb⟩
  · obtain ⟨w', out, hw', hl', hsent', hf⟩ := hl₀.ends hx hc ho ha₁ hm
    refine ⟨w', out, ?_, hsent', hl'.completed hsent' hf⟩
    unfold remaining
    rw [if_pos rfl, List.map_singleton, World.receiveAll_cons, hw']
    rfl
  · have hr : x.Reached N.toNat [] w₀.rx := .active ha₁ hb fun he => absurd he hlt.ne
    have hlen : ((List.range' N.toNat (x.totalChunks - N.toNat)).map (x.plainRound o)).length =
        x.totalChunks - N.toNat := by rw [List.length_map, List.length_range']
    have hrounds : x.AreRounds env N.toNat w₀
        ((List.range' N.toNat (x.totalChunks - N.toNat)).map (x.plainRound o)) :=
      areRounds_plainRound ho (by omega)
    obtain ⟨w', out, hw', hl', hsent', hr', -⟩ := hr.rounds hx hc hl₀ hrounds (by rw [hlen]; omega)
    rw [hlen, show N.toNat + (x.totalChunks - N.toNat) = x.totalChunks by omega] at hr'
    refine ⟨w', out, ?_, hsent', hl'.completed hsent' (hr'.final hl')⟩
    rw [remaining_eq hx env o hne, hw']

end Transfer

namespace System

variable {env : Env} {x : Transfer} {s s' : System} {m : Move} {ms hist : List Moment} {w w' : World}
  {P : System → Prop} {out : List Bytes}

/-! ## Sessions of one transfer -/

/-- What holds between the moves of sessions of `x`. -/
structure Sound (env : Env) (x : Transfer) (s : System) : Prop extends Sole env x s where
  held : x.NodeInv env 0 s.node
  ok : s.node.Ok

theorem Sound.step (h : Sound env x s) (htid : x.tid ≠ 0) (hm : Retries x s m)
    (hs : s.step env m = some (ms, s')) : Sound env x s' := by
  obtain ⟨hsole, hproper⟩ := h.toSole.step hm hs
  cases m with
  | start y => cases hs; exact ⟨hsole, h.held, h.ok⟩
  | timeout => cases hs; exact ⟨hsole, h.held, h.ok⟩
  | batch pdus =>
    simp only [System.step] at hs
    split at hs
    · cases hs
      exact ⟨hsole, h.held, h.ok⟩
    · cases hs
  | receiver a =>
    simp only [System.step] at hs
    split at hs
    · obtain ⟨⟨ms', n'⟩, hn, hr⟩ := Option.map_eq_some_iff.mp hs
      cases hr
      have ha : x.Surroundings env s.node a := by
        rw [← h.transfer]
        exact hproper
      exact ⟨hsole, (h.held.step htid ha hn).1, Node.ok_step h.ok hn⟩
    · cases hs

theorem Sound.run (h : Sound env x s) (htid : x.tid ≠ 0) (hr : Run env (Retries x) s hist s') :
    Sound env x s' :=
  hr.inv (I := fun _ s => Sound env x s) h fun _ _ _ _ _ hi hm hs => hi.step htid hm hs

theorem sound_first {n : Node} (hn : n.Fresh) (hd : x.Fits (n.disk.files (x.path env))) :
    Sound env x (first env n x) where
  transfer := rfl
  line := Transfer.reacts_send
  since := by
    cases n with
    | up w => exact hn.elim
    | down disk log =>
      show log.length = 0
      rw [hn.2]
      rfl
  held := Transfer.stored_fresh hn hd
  ok := hn.ok

theorem Sound.live (h : Sound env x s) (hn : s.node = .up w) : x.Live env w := by
  have h1 := h.held
  have h2 := h.ok
  rw [hn] at h1 h2
  exact ⟨h1, h2.1⟩

/-! ## The way on -/

/-- The session has returned, and the file is in place. -/
def Delivered (env : Env) (x : Transfer) (s : System) : Prop :=
  s.phase = .returned ∧ s.node.disk.files (x.path env) = some x.file

/-- PDUs on the line are delivered one after the other. -/
theorem run_receiveAll {ds : List (Bytes × Oracle)} (hn : s.node = .up w)
    (hw : w.receiveAll env ds = some w') (hd : ∀ d ∈ ds, d.1 ∈ s.line ∧ d.2.Smooth) :
    ∃ hist, Run env (Retries x) s hist { s with node := .up w' } := by
  induction ds generalizing s w with
  | nil =>
    cases hw
    rw [← hn]
    exact ⟨[], .start⟩
  | cons d ds ih =>
    rw [World.receiveAll_cons] at hw
    obtain ⟨w₁, hw₁, hw⟩ := Option.bind_eq_some_iff.mp hw
    obtain ⟨ms, hstep⟩ := World.receive_eq_some.mp hw₁
    obtain ⟨hline, ho⟩ := hd d List.mem_cons_self
    have hmove : s.step env (.receiver (.recv d.1 d.2 none)) =
        some (ms, { s with node := .up w₁ }) := by
      have hraw : ∀ raw ∈ Action.raw? (.recv d.1 d.2 none), raw ∈ s.line := by
        intro raw hr
        cases hr
        exact hline
      simp only [System.step]
      rw [if_pos hraw, hn, hstep]
      rfl
    obtain ⟨hist, hrun⟩ := ih (s := { s with node := .up w₁ }) rfl hw
      fun e he => hd e (List.mem_cons_of_mem d he)
    have hok : Retries x s (.receiver (.recv d.1 d.2 none)) :=
      ⟨⟨trivial, ho⟩, fun y hy => by cases hy⟩
    exact ⟨_, (Run.start.step hok hmove).trans hrun⟩

/-- The sender reads PDUs the receiver has sent. -/
theorem reaches_batch (pdus : List Bytes) (h : Sound env x s) (htid : x.tid ≠ 0)
    (hp : s.phase.Reads pdus) (hsent : ∀ pdu ∈ pdus, pdu ∈ s.node.sent)
    (hnext : ∀ s', s' = s.react (x.onBatch env.crc32 s.phase pdus) → Sound env x s' →
      Reaches (System.step env) (Retries x) s' P) :
    Reaches (System.step env) (Retries x) s P := by
  have hmove : s.step env (.batch pdus) = some ([], s.react (x.onBatch env.crc32 s.phase pdus)) := by
    simp only [System.step]
    rw [if_pos ⟨hp, hsent⟩, h.transfer]
  have hok : Retries x s (.batch pdus) := ⟨trivial, fun y hy => by cases hy⟩
  exact Reaches.move hok hmove (hnext _ rfl (h.step htid hok hmove))

theorem anyPdu_ack (t c : UInt32) (ci : Nat) :
    anyPdu (acksChunk ci) [AckPdu.raw ⟨t, c⟩] = some (c.toNat == ci) := by
  have hne : AckPdu.raw ⟨t, c⟩ ≠ [] := List.cons_ne_nil _ _
  unfold anyPdu
  rw [if_neg hne, acksChunk_raw]
  cases c.toNat == ci with
  | true => rfl
  | false => rfl

/-- With a final ACK to read, the session returns. -/
theorem reaches_return (h : Sound env x s) (htid : x.tid ≠ 0) (hn : s.node = .up w) {t : UInt32}
    (hp : (∃ ci, s.phase = .chunk ci) ∨ s.phase = .final)
    (hack : AckPdu.raw ⟨t, uint32Max⟩ ∈ w.sent) :
    Reaches (System.step env) (Retries x) s (Delivered env x) := by
  have hread : ∀ pdu ∈ [AckPdu.raw ⟨t, uint32Max⟩], pdu ∈ s.node.sent := by
    intro pdu hpdu
    rw [List.mem_singleton.mp hpdu, hn]
    exact hack
  have hfile : s.node.disk.files (x.path env) = some x.file := by
    have hlog : .sent (AckPdu.raw ⟨t, uint32Max⟩) ∈ w.log := World.mem_sent.mp hack
    rw [hn]
    exact (h.live hn).inv.final _ (isFinalAck_raw t) hlog
  have hany : anyPdu (acksChunk ackFinal) [AckPdu.raw ⟨t, uint32Max⟩] = some true := anyPdu_ack t _ _
  have hreads : s.phase.Reads [AckPdu.raw ⟨t, uint32Max⟩] := by
    rcases hp with ⟨ci, hp⟩ | hp
    · rw [hp]
      exact List.cons_ne_nil _ _
    · rw [hp]
      exact List.cons_ne_nil _ _
  have hreturn : x.onBatch env.crc32 s.phase [AckPdu.raw ⟨t, uint32Max⟩] = ([], .returned) := by
    rcases hp with ⟨ci, hp⟩ | hp
    · rw [hp, Transfer.onBatch, Transfer.onChunkBatch, hany]
    · rw [hp, Transfer.onBatch, Transfer.onFinalBatch, hany]
  refine reaches_batch _ h htid hreads hread fun s' hs' _ => Reaches.here ?_
  rw [hs', hreturn]
  exact ⟨rfl, hfile⟩

/-- The round of a chunk is delivered, and its ACK read. -/
theorem reaches_round (hx : x.WellFormed) (hc : Crc.Composes env.crc32) {ci : Nat}
    (h : Sound env x s) (hn : s.node = .up w) (hp : s.phase = .chunk ci) (hci : ci < x.totalChunks)
    (hline : ∀ raw ∈ (x.sendChunk env.crc32 ci).1, raw ∈ s.line) (hr : x.Reached ci out w.rx)
    (hout : ∀ pdu ∈ out, pdu ∈ w.sent)
    (hnext : ∀ s' w' out', Sound env x s' → s'.node = .up w' →
      s'.phase = (x.sendChunk env.crc32 (ci + 1)).2 →
      (∀ raw ∈ (x.sendChunk env.crc32 (ci + 1)).1, raw ∈ s'.line) → x.Reached (ci + 1) out' w'.rx →
      (∀ pdu ∈ out', pdu ∈ w'.sent) → Reaches (System.step env) (Retries x) s' (Delivered env x)) :
    Reaches (System.step env) (Retries x) s (Delivered env x) := by
  obtain ⟨w₁, out₁, hw₁, hl₁, hsent₁, hr₁, hack⟩ :=
    hr.round hx hc (h.live hn) hci (Transfer.isRound_plainRound smooth_noFaults hci)
  rw [Transfer.plainRound_deliveries hx env noFaults hci] at hw₁
  obtain ⟨hist, hrun⟩ := run_receiveAll (x := x) hn hw₁ fun d hd => by
    obtain ⟨raw, hraw, rfl⟩ := List.mem_map.mp hd
    exact ⟨hline raw hraw, smooth_noFaults⟩
  have h₁ := h.run hx.tid hrun
  have hout₁ : ∀ pdu ∈ out ++ out₁, pdu ∈ w₁.sent := by
    intro pdu hpdu
    rw [hsent₁]
    rcases List.mem_append.mp hpdu with hpdu | hpdu
    · exact List.mem_append_left _ (hout pdu hpdu)
    · exact List.mem_append_right _ hpdu
  refine Reaches.after hrun ?_
  rcases hack with hack | hfinal
  · -- the chunk has been acknowledged: the next one is sent
    have hci' := Transfer.toNat_chunk hx hci
    have htot := hx.totalChunks
    have hother : ((UInt32.ofNat ci).toNat == ackFinal) = false := by
      rw [hci', beq_eq_false_iff_ne, ackFinal]
      omega
    have hthis : ((UInt32.ofNat ci).toNat == ci) = true := by rw [hci', beq_self_eq_true]
    have hbatch : x.onBatch env.crc32 (.chunk ci) [x.chunkAck ci] =
        x.sendChunk env.crc32 (ci + 1) := by
      rw [Transfer.chunkAck, Transfer.onBatch, Transfer.onChunkBatch, anyPdu_ack, hother, anyPdu_ack,
        hthis]
      rfl
    refine reaches_batch [x.chunkAck ci] h₁ hx.tid ?_ ?_ fun s' hs' hsound => ?_
    · show s.phase.Reads _
      rw [hp]
      exact List.cons_ne_nil _ _
    · intro pdu hpdu
      rw [List.mem_singleton.mp hpdu]
      exact hout₁ _ hack
    · have hphase : ({ s with node := .up w₁ } : System).phase = .chunk ci := hp
      rw [hphase, hbatch] at hs'
      subst hs'
      exact hnext _ w₁ _ hsound rfl rfl (fun raw hraw => List.mem_append_right _ hraw) hr₁ hout₁
  · exact reaches_return h₁ hx.tid rfl (.inl ⟨ci, hp⟩) (hout₁ _ hfinal)

/-- From chunk to chunk, to the end. -/
theorem reaches_rounds (hx : x.WellFormed) (hc : Crc.Composes env.crc32) {k ci : Nat}
    (h : Sound env x s) (hn : s.node = .up w) (hp : s.phase = .chunk ci)
    (hci : ci + (k + 1) = x.totalChunks) (hline : ∀ raw ∈ (x.sendChunk env.crc32 ci).1, raw ∈ s.line)
    (hr : x.Reached ci out w.rx) (hout : ∀ pdu ∈ out, pdu ∈ w.sent) :
    Reaches (System.step env) (Retries x) s (Delivered env x) := by
  induction k generalizing s w ci out with
  | zero =>
    refine reaches_round hx hc h hn hp (by omega) hline hr hout
      fun s' w' out' hsound hn' hp' _ hr' hout' => ?_
    have hlast : x.sendChunk env.crc32 (ci + 1) = ([], .final) := if_neg (by omega)
    rw [hlast] at hp'
    rw [hci] at hr'
    exact reaches_return hsound hx.tid hn' (.inr hp') (hout' _ (hr'.final (hsound.live hn')))
  | succ k ih =>
    refine reaches_round hx hc h hn hp (by omega) hline hr hout
      fun s' w' out' hsound hn' hp' hline' hr' hout' => ?_
    rw [hx.sendChunk_eq env.crc32 (show ci + 1 < x.totalChunks by omega)] at hp'
    exact ih hsound hn' hp' (by omega) hline' hr' hout'

/-- A session that has just begun, and its first two PDUs. -/
theorem send_eq (hx : x.WellFormed) (env : Env) :
    x.send env.crc32 = ([x.metadataRaw env.crc32, x.queryPdu], .query 0) := by
  rw [Transfer.send, hx.metadataPdu env]
  rfl

/-- A transfer that is active, or was not the last to end, is resumed. -/
theorem reaches_resumed (hx : x.WellFormed) (hc : Crc.Composes env.crc32) (h : Sound env x s)
    (hn : s.node = .up w) (hp : s.phase = .query 0)
    (hline : x.metadataRaw env.crc32 ∈ s.line ∧ x.queryPdu ∈ s.line)
    (hs : w.rx.transferActive = true ∨ w.rx.lastAckedId ≠ x.tid) :
    Reaches (System.step env) (Retries x) s (Delivered env x) := by
  obtain ⟨w₁, hw₁, hl₁, -, ha₁⟩ := (h.live hn).opens hx hc smooth_noFaults hs
  obtain ⟨w₀, N, hw₀, hl₀, hsent₀, hrx₀, hN⟩ := hl₁.queried hx hc smooth_noFaults ha₁
  rw [← hrx₀] at ha₁ hN
  have hboth : w.receiveAll env [(x.metadataRaw env.crc32, noFaults), (x.queryPdu, noFaults)] =
      some w₀ := by
    rw [World.receiveAll_cons, hw₁, Option.bind_some, World.receiveAll_cons, hw₀]
    rfl
  obtain ⟨hist, hrun⟩ := run_receiveAll (x := x) hn hboth fun d hd => by
    rcases List.mem_cons.mp hd with rfl | hd
    · exact ⟨hline.1, smooth_noFaults⟩
    · rw [List.mem_singleton.mp hd]
      exact ⟨hline.2, smooth_noFaults⟩
  have h₁ := h.run hx.tid hrun
  refine Reaches.after hrun ?_
  refine reaches_batch [ResumeInfoPdu.raw ⟨x.tid, N⟩] h₁ hx.tid ?_ ?_ fun s' hs' hsound => ?_
  · show s.phase.Reads _
    rw [hp]
    exact List.length_singleton
  · intro pdu hpdu
    rw [List.mem_singleton.mp hpdu]
    show _ ∈ w₀.sent
    rw [hsent₀]
    exact List.mem_append_right _ (List.mem_singleton_self _)
  have hphase : ({ s with node := .up w₀ } : System).phase = .query 0 := hp
  rw [hphase, Transfer.onBatch, List.headD_cons, Transfer.onInfo_raw,
    if_neg (not_not_intro rfl)] at hs'
  rcases hN with ⟨rfl, hm⟩ | ⟨hne, hlt, hb⟩
  · -- nothing is missing: the Eof is answered by the final ACK
    rw [if_pos rfl] at hs'
    subst hs'
    obtain ⟨w₂, out, hw₂, hl₂, hsent₂, hf⟩ := hl₀.ends hx hc smooth_noFaults ha₁ hm
    have hone : w₀.receiveAll env [(x.eofPdu env.crc32, noFaults)] = some w₂ := by
      rw [World.receiveAll_cons, hw₂]
      rfl
    obtain ⟨hist', hrun'⟩ := run_receiveAll (x := x)
      (s := react { s with node := .up w₀ } ([x.eofPdu env.crc32], .final)) rfl hone fun d hd => by
        rw [List.mem_singleton.mp hd]
        exact ⟨List.mem_append_right _ (List.mem_singleton_self _), smooth_noFaults⟩
    refine Reaches.after hrun' ?_
    refine reaches_return (hsound.run hx.tid hrun') hx.tid rfl (t := x.tid) (.inr rfl) ?_
    rw [hsent₂]
    exact List.mem_append_right _ hf
  · rw [if_neg hne] at hs'
    subst hs'
    have hr : x.Reached N.toNat [] w₀.rx := .active ha₁ hb fun he => absurd he hlt.ne
    have hleft : N.toNat + (x.totalChunks - N.toNat - 1 + 1) = x.totalChunks := by omega
    refine reaches_rounds hx hc hsound rfl ?_ hleft (fun raw hraw => List.mem_append_right _ hraw) hr
      fun pdu hpdu => by cases hpdu
    show (x.sendChunk env.crc32 N.toNat).2 = _
    rw [hx.sendChunk_eq env.crc32 hlt]

/-- An attempt of `_query_resume` times out. -/
theorem reaches_timeout (h : Sound env x s) (htid : x.tid ≠ 0)
    (hnext : ∀ s', s' = s.react (x.onTimeout env.crc32 s.phase) → Sound env x s' →
      Reaches (System.step env) (Retries x) s' P) :
    Reaches (System.step env) (Retries x) s P := by
  have hmove : s.step env .timeout = some ([], s.react (x.onTimeout env.crc32 s.phase)) := by
    rw [System.step, h.transfer]
  have hok : Retries x s .timeout := ⟨trivial, fun y hy => by cases hy⟩
  exact Reaches.move hok hmove (hnext _ rfl (h.step htid hok hmove))

/-- A transfer that was the last to end is confirmed again; the sender gets there without an
answer to its query. -/
theorem reaches_confirmed (hx : x.WellFormed) (hc : Crc.Composes env.crc32) (h : Sound env x s)
    (hn : s.node = .up w) (hp : s.phase = .query 0) (hline : x.metadataRaw env.crc32 ∈ s.line)
    (ha : w.rx.transferActive = false) (hl : w.rx.lastAckedId = x.tid) :
    Reaches (System.step env) (Retries x) s (Delivered env x) := by
  obtain ⟨name, -, hd⟩ := Transfer.decodePdu_metadataPdu (hx.metadataPdu env)
  obtain ⟨w₁, hw₁, -, -, hsent⟩ :=
    (h.live hn).receives hx hc smooth_noFaults (.metadata (hx.metadataPdu env))
  have hrep : w.rx.repeatsAck (x.metadata env.crc32 name) = true := by
    unfold CfdpReceiver.repeatsAck
    rw [ha, hl]
    exact beq_self_eq_true _
  rw [Transfer.reply_of_decode hd] at hsent
  simp only [CfdpReceiver.replyPdu, CfdpReceiver.replyMetadata, hrep, if_true] at hsent
  have hone : w.receiveAll env [(x.metadataRaw env.crc32, noFaults)] = some w₁ := by
    rw [World.receiveAll_cons, hw₁]
    rfl
  obtain ⟨hist, hrun⟩ := run_receiveAll (x := x) hn hone fun d hd => by
    rw [List.mem_singleton.mp hd]
    exact ⟨hline, smooth_noFaults⟩
  refine Reaches.after hrun ?_
  have h₁ := h.run hx.tid hrun
  have hp₁ : ({ s with node := .up w₁ } : System).phase = .query 0 := hp
  -- three attempts, then chunk 0
  refine reaches_timeout h₁ hx.tid fun s₂ hs₂ h₂ => ?_
  rw [hp₁] at hs₂
  refine reaches_timeout h₂ hx.tid fun s₃ hs₃ h₃ => ?_
  rw [hs₂] at hs₃
  refine reaches_timeout h₃ hx.tid fun s₄ hs₄ h₄ => ?_
  rw [hs₃] at hs₄
  have hp₄ : s₄.phase = .chunk 0 := by
    rw [hs₄]
    show (x.sendChunk env.crc32 0).2 = _
    rw [hx.sendChunk_eq env.crc32 hx.totalChunks_pos]
  have hn₄ : s₄.node = .up w₁ := by rw [hs₄]; rfl
  refine reaches_return h₄ hx.tid hn₄ (.inl ⟨0, hp₄⟩) (t := w.rx.state.transactionId) ?_
  rw [hsent]
  exact List.mem_append_right _ (List.mem_singleton_self _)

/-- A running receiver: a new session completes the transfer. -/
theorem reaches_session (hx : x.WellFormed) (hc : Crc.Composes env.crc32) (htid : x.tid = 1)
    (h : Sound env x s) (hn : s.node = .up w) :
    Reaches (System.step env) (Retries x) s (Delivered env x) := by
  have hok : Retries x s (.start x) := ⟨htid, fun y hy => by cases hy; rfl⟩
  have h₁ := h.step hx.tid hok rfl
  refine Reaches.move hok rfl ?_
  have hp := congrArg Prod.snd (send_eq hx env)
  have hline := congrArg Prod.fst (send_eq hx env)
  have hmeta : x.metadataRaw env.crc32 ∈ s.line ++ (x.send env.crc32).1 := by
    rw [hline]
    exact List.mem_append_right _ List.mem_cons_self
  have hquery : x.queryPdu ∈ s.line ++ (x.send env.crc32).1 := by
    rw [hline]
    exact List.mem_append_right _ (List.mem_cons_of_mem _ (List.mem_singleton_self _))
  by_cases hs : w.rx.transferActive = true ∨ w.rx.lastAckedId ≠ x.tid
  · exact reaches_resumed hx hc h₁ hn hp ⟨hmeta, hquery⟩ hs
  · rw [not_or, not_not] at hs
    exact reaches_confirmed hx hc h₁ hn hp hmeta (by simpa using hs.1) hs.2

variable {n : Node}

/-- **From every reachable state the transfer can be completed.** Whatever the sessions of a
well-formed transfer and the receiver have been through, some moves lead to a state in which
the session has returned and the destination is the source file. -/
theorem exists_return (hx : x.WellFormed) (hc : Crc.Composes env.crc32) (htid : x.tid = 1)
    (hfresh : n.Fresh) (hd : x.Fits (n.disk.files (x.path env)))
    (h : Run env (Retries x) (first env n x) hist s) :
    ∃ hist' s', Run env (Retries x) s hist' s' ∧ s'.phase = .returned ∧
      s'.node.disk.files (x.path env) = some x.file := by
  have hsound := (sound_first hfresh hd).run hx.tid h
  show Reaches (System.step env) (Retries x) s (Delivered env x)
  cases hn : s.node with
  | up w => exact reaches_session hx hc htid hsound hn
  | down disk log =>
    obtain ⟨ms, w, hboot, -⟩ := boots env disk log .blank noFaults
    have hok : Retries x s (.receiver powerOn) := ⟨smooth_noFaults, fun y hy => by cases hy⟩
    have hmove : s.step env (.receiver powerOn) = some (ms, { s with node := .up w }) := by
      have hraw : ∀ raw ∈ Action.raw? powerOn, raw ∈ s.line := fun raw hr => by cases hr
      simp only [System.step]
      rw [if_pos hraw, hn, powerOn, hboot]
      rfl
    exact Reaches.move hok hmove (reaches_session hx hc htid (hsound.step hx.tid hok hmove) rfl)

/-- The receiver crashes after the Metadata, and the sender times out. -/
theorem exists_return_small : ∃ hist s, Run sampleEnv (Retries (Transfer.small [0x61]))
    (first sampleEnv unusedNode (Transfer.small [0x61])) hist s ∧ s.node.world? = none ∧
      ∃ hist' s', Run sampleEnv (Retries (Transfer.small [0x61])) s hist' s' ∧ s'.phase = .returned ∧
        s'.node.disk.files ((Transfer.small [0x61]).path sampleEnv) =
          some (Transfer.small [0x61]).file := by
  have hrun : (play [.receiver powerOn,
      .receiver (deliver ((Transfer.small [0x61]).metadataRaw sampleEnv.crc32)), .receiver .crash,
      .timeout]).any (fun r => r.2.node.world?.isNone) = true := by
    decide +kernel
  simp only [Option.any_eq_true, Prod.exists, Option.isNone_iff_eq_none] at hrun
  obtain ⟨hist, s, hr, hnone⟩ := hrun
  have hok : Run sampleEnv (Retries (Transfer.small [0x61]))
      (first sampleEnv unusedNode (Transfer.small [0x61])) hist s := by
    refine Machine.exec_run hr fun m hm s _ _ => ?_
    simp only [List.mem_cons, List.not_mem_nil, or_false] at hm
    rcases hm with rfl | rfl | rfl | rfl
    · exact ⟨smooth_noFaults, fun y hy => by cases hy⟩
    · exact ⟨usual_of_smooth s, fun y hy => by cases hy⟩
    · exact ⟨trivial, fun y hy => by cases hy⟩
    · exact ⟨trivial, fun y hy => by cases hy⟩
  exact ⟨hist, s, hok, hnone, exists_return (Transfer.wellFormed_small (by simp) (by simp))
    Crc.composes_zlibCrc32 rfl unusedNode_fresh (fun g hg => by cases hg) hok⟩

end System

end Cfdp
