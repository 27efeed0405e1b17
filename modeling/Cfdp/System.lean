import Cfdp.Answers
import Cfdp.Durability
import Cfdp.Session

/-!
# One receiver and its senders

The receiver and the sessions that use it one after the other (`System`). A session can
be interrupted anywhere: the next one just starts. Every PDU either side has transmitted
may arrive at any time, any number of times, or never; the receiver crashes and boots.

All senders use transaction 1, so what is left of one transfer can be taken for the next.
`run_returned` says that this is all there is: as long as a new transfer finds nothing of an
older one (`Proper`), a session that returns leaves its file in place.
-/

namespace Cfdp

open Crash Prog Machine LittleEndian

instance (phase : Phase) (batch : List Bytes) : Decidable (phase.Reads batch) :=
  match phase with
  | .query _ => inferInstanceAs (Decidable (batch.length = 1))
  | .chunk _ => inferInstanceAs (Decidable (batch ≠ []))
  | .final => inferInstanceAs (Decidable (batch ≠ []))
  | .returned => isFalse id
  | .raised => isFalse id

structure System where
  node : Node
  /-- what the session that runs, or ran last, sends -/
  transfer : Transfer
  phase : Phase
  /-- the PDUs the sessions have transmitted -/
  line : List Bytes
  /-- the length of the receiver's log when the first of the latest sessions of `transfer` began -/
  since : Nat

inductive Move where
  | start (x : Transfer)
  | timeout
  | batch (pdus : List Bytes)
  | receiver (a : Action)

/-- The PDU an action delivers. -/
def Action.raw? : Action → Option Bytes
  | .recv raw _ _ => some raw
  | _ => none

namespace System

/-- The sender has reacted. -/
def react (s : System) (r : Reaction) : System := { s with phase := r.2, line := s.line ++ r.1 }

def step (env : Env) (s : System) : Move → Option (List Moment × System)
  | .start x =>
    some ([], react { s with
      transfer := x, since :=
    if x = s.transfer then s.since else s.node.log.length } (x.send env.crc32))
  | .timeout => some ([], s.react (s.transfer.onTimeout env.crc32 s.phase))
  | .batch pdus =>
    if s.phase.Reads pdus ∧ ∀ pdu ∈ pdus, pdu ∈ s.node.sent then
      some ([], s.react (s.transfer.onBatch env.crc32 s.phase pdus))
    else none
  | .receiver a =>
    if ∀ raw ∈ a.raw?, raw ∈ s.line then
      (Node.step env s.node a).map fun r => (r.1, { s with node := r.2 })
    else none

/-- The first session begins. -/
def first (env : Env) (n : Node) (x : Transfer) : System :=
  ⟨n, x, (x.send env.crc32).2, (x.send env.crc32).1, n.log.length⟩

abbrev Run (env : Env) (ok : System → Move → Prop) (s : System) (hist : List Moment)
    (s' : System) : Prop :=
  Machine.Run (step env) ok s hist s'

/-- All senders use transaction 1, and no call of the receiver fails. -/
def Usual (_ : System) : Move → Prop
  | .start x => x.tid = 1
  | .receiver a => a.Within (fun _ => True) Oracle.Smooth
  | _ => True

end System

/-- `recv_dir/name`. -/
def Transfer.recvPath (env : Env) (x : Transfer) : Bytes :=
  env.recvDir ++ 0x2F :: (asciiEncode x.destFilename).getD []

/-- The name fits into the Metadata, and the path into the record. -/
structure Transfer.NameFits (env : Env) (x : Transfer) : Prop where
  recvDir : ∀ b ∈ env.recvDir, b ≠ 0
  name : ∀ b ∈ (asciiEncode x.destFilename).getD [], b ≠ 0
  length : ((asciiEncode x.destFilename).getD []).length ≤ 255
  path : (x.recvPath env).length ≤ 511

/-- Nothing at the receiver can be taken for a part of `x`: it has no journal, no active transfer and
no final ACK of this transaction to repeat, and the checksum tells if the destination is too long. -/
structure Transfer.Clear (env : Env) (x : Transfer) (n : Node) : Prop where
  journal : n.disk.stateBin = none
  idle : ∀ w, n = .up w → w.rx.transferActive = false ∧ w.rx.lastAckedId ≠ x.tid
  detects : x.Detects env (x.surplus (n.disk.files (x.path env)))

/-- The receiver and the sender deal with one transfer at a time: a session of another one begins when
nothing is left of the last, and afterwards no PDU of the last arrives, nor a final ACK from
before; and its name is short enough. -/
def System.Proper (env : Env) (s : System) : Move → Prop
  | .start x => x.tid = 1 ∧ (x = s.transfer ∨ x.NameFits env ∧ x.Clear env s.node)
  | .receiver a => s.transfer.Surroundings env s.node a
  | .batch pdus => ∀ pdu ∈ pdus, acksChunk ackFinal pdu = true → .sent pdu ∈ s.node.log.drop s.since
  | .timeout => True

namespace Transfer

variable {env : Env} {x : Transfer} {rest : Bytes} {since : Nat} {o : Oracle} {w w' : World} {raw : Bytes}

theorem NameFits.path_eq (h : x.NameFits env) : x.path env = x.recvPath env := by
  unfold Transfer.path Transfer.fileName
  rw [List.take_of_length_le h.length, cstr_eq_self h.recvDir, cstr_eq_self h.name]
  exact List.take_of_length_le h.path

/-! ## A receiver that knows nothing of the transfer -/

/-- No transfer is active, and the final ACK would not be repeated. -/
structure Idle (env : Env) (x : Transfer) (rest : Bytes) (since : Nat) (w : World) : Prop extends
    Kept env x rest since w.disk w.log where
  active : w.rx.transferActive = false
  other : w.rx.lastAckedId ≠ x.tid

/-- The record of `x` begins when its Metadata is accepted. -/
theorem Idle.handleMetadata (h : Idle env x rest since w) {name : Bytes} (hp : x.Packable name) :
    wp (handleMetadata env o (x.metadata env.crc32 name)) (fun y => Kept env x rest since y.disk y.log)
      (fun _ y => Held env x rest since y ∨ Idle env x rest since y) (fun _ _ => False) w := by
  refine wp_handleMetadata (fun _ _ => .inr h) (fun hr => ?_) fun hacc => ?_
  · simp only [CfdpReceiver.repeatsAck, Bool.and_eq_true, beq_iff_eq] at hr
    exact absurd hr.2 h.other
  refine ⟨fun _ => h.toKept.dropJournal, ?_⟩
  rintro w₁ hr w₂ rfl
  have hrx : w₁.rx = w.rx := hr.alike.1
  have hm : x.Matches env (w₁.rx.state.start env o (x.metadata env.crc32 name)) :=
    matches_start hp (CfdpReceiver.sane_of_accepts hacc) _
  have hact : ¬ w₁.rx.transferActive = true := by
    rw [hrx, h.active]
    exact Bool.false_ne_true
  have h2 : Held env x rest since (w₁.setRx fun rx =>
      { rx with state := rx.state.start env o (x.metadata env.crc32 name) }) := by
    have hkept : Kept env x rest since w₁.disk w₁.log := h.toKept.removed hr
    refine ⟨hkept, fun _ => hm, marksStored_start _ _ _, fun ha => absurd ha hact, fun hl => ?_⟩
    replace hl : w₁.rx.lastAckedId = x.tid := hl
    rw [hrx] at hl
    exact absurd hl h.other
  obtain ⟨h3, h4, h5⟩ := h2.created hm
  exact ⟨fun t => (h3 t).toKept, h4.toKept, fun w' hc => .inl (h5 w' hc)⟩

theorem Idle.onPduReceived (h : Idle env x rest since w) (hraw : x.Emits env.crc32 raw) :
    wp (onPduReceived env o raw) (fun y => Kept env x rest since y.disk y.log)
      (fun _ y => Held env x rest since y ∨ Idle env x rest since y) (fun _ _ => False) w := by
  cases hraw with
  | metadata hm =>
    obtain ⟨name, hp, hd⟩ := decodePdu_metadataPdu hm
    rw [Cfdp.onPduReceived, hd]
    exact h.handleMetadata hp
  | data c p hpk =>
    obtain ⟨-, rfl⟩ := packet_eq hpk
    exact wp_data_idle h.active _ (.inr h)
  | eof =>
    have hno : ¬ w.rx.acceptsEof ⟨x.tid, x.checksum env.crc32⟩ = true := by
      simp [CfdpReceiver.acceptsEof, h.active]
    rw [Cfdp.onPduReceived, decodePdu_eofPdu]
    exact wp_handleEof (fun _ => .inr h) (fun hacc => absurd hacc hno) fun hacc => absurd hacc hno
  | query =>
    rw [Cfdp.onPduReceived, decodePdu_queryPdu]
    have hsend := h.toKept.send (ResumeInfoPdu.raw ⟨x.tid, firstMissingChunk w.rx x.tid⟩)
      fun hf => absurd hf.1 (not_isAck_info _)
    exact wp_handleResumeQuery.mpr ⟨hsend, .inr ⟨hsend, h.active, h.other⟩⟩

/-! ## The receiver while one transfer is sent -/

/-- The invariant of the node. -/
def NodeHeld (env : Env) (x : Transfer) (rest : Bytes) (since : Nat) : Node → Prop
  | .up w => Held env x rest since w ∨ Idle env x rest since w
  | .down disk log => Kept env x rest since disk log

theorem NodeHeld.kept {n : Node} (h : NodeHeld env x rest since n) :
    Kept env x rest since n.disk n.log := by
  cases n with
  | down disk log => exact h
  | up w =>
    rcases h with h | h
    · exact h.toKept
    · exact h.toKept

theorem NodeHeld.step {n n' : Node} {a : Action} {ms : List Moment} (h : NodeHeld env x rest since n)
    (hd : x.Detects env rest) (htid : x.tid ≠ 0) (ha : x.Surroundings env n a)
    (hs : Node.step env n a = some (ms, n')) : NodeHeld env x rest since n' := by
  refine (Node.inv_step (I := NodeHeld env x rest since) (J := fun _ => True)
    (fun w raw o cut hw ha => ?_)
    (fun w hw => hw.kept) (fun disk log garbage o cut hk ha => ?_) h ha hs).1
  · rcases hw with hw | hw
    · exact wp_mono (hw.onPduReceived hd ha.2 ha.1) (fun _ hx => ⟨trivial, hx.toKept⟩)
        (fun _ _ hx => ⟨trivial, .inl hx⟩) fun _ _ hx => hx.elim
    · exact wp_mono (hw.onPduReceived ha.1) (fun _ hx => ⟨trivial, hx⟩) (fun _ _ hx => ⟨trivial, hx⟩)
        fun _ _ hx => hx.elim
  · exact wp_mono (Kept.onBoot hk hd ha htid garbage) (fun _ hx => ⟨trivial, hx.toKept⟩)
      (fun _ _ hx => ⟨trivial, .inl hx⟩) fun _ _ hx => hx.elim

/-- A transfer finds nothing of another one. -/
theorem Clear.held {n : Node} (h : x.Clear env n) :
    NodeHeld env x (x.surplus (n.disk.files (x.path env))) n.log.length n := by
  have hkept : Kept env x (x.surplus (n.disk.files (x.path env))) n.log.length n.disk n.log := by
    refine ⟨rfl, fun c hc => ?_, fun pdu _ hmem => ?_⟩
    · rw [h.journal] at hc
      cases hc
    · rw [List.drop_length] at hmem
      cases hmem
  cases n with
  | down disk log => exact hkept
  | up w =>
    obtain ⟨h1, h2⟩ := h.idle w rfl
    exact .inr ⟨hkept, h1, h2⟩

end Transfer

namespace System

variable {env : Env} {s s' : System} {m : Move} {ms hist : List Moment}

/-! ## Every run -/

/-- What holds between moves that are proper. -/
structure Inv (env : Env) (s : System) : Prop where
  tid : s.transfer.tid = 1
  name : s.transfer.NameFits env
  held : ∃ rest, s.transfer.Detects env rest ∧ s.transfer.NodeHeld env rest s.since s.node
  acked : s.phase = .returned → ∃ pdu, IsFinalAck pdu ∧ .sent pdu ∈ s.node.log.drop s.since

theorem isFinalAck_of_acksChunk {pdu : Bytes} (h : acksChunk ackFinal pdu = true) :
    IsFinalAck pdu := by
  simp only [acksChunk, Bool.and_eq_true, beq_iff_eq] at h
  obtain ⟨⟨hcode, -⟩, hci⟩ := h
  exact ⟨hcode, UInt32.toNat_inj.mp hci⟩

theorem send_open (env : Env) (x : Transfer) : (x.send env.crc32).2 ≠ .returned :=
  Transfer.sendAll_open Phase.noConfusion _

theorem inv_first {n : Node} {x : Transfer} (htid : x.tid = 1) (hname : x.NameFits env)
    (hc : x.Clear env n) :
    Inv env (first env n x) where
  tid := htid
  name := hname
  held := ⟨_, hc.detects, hc.held⟩
  acked hr := absurd hr (send_open env x)

theorem Inv.step (h : Inv env s) (hm : s.Proper env m) (hs : s.step env m = some (ms, s')) :
    Inv env s' := by
  obtain ⟨rest, hd, hheld⟩ := h.held
  cases m with
  | start x =>
    cases hs
    obtain ⟨htid, hx⟩ := hm
    by_cases he : x = s.transfer
    · refine ⟨htid, ?_, ?_, fun hr => absurd hr (send_open env x)⟩
      · rw [he]
        exact h.name
      · show ∃ rest, x.Detects env rest ∧
          x.NodeHeld env rest (if x = s.transfer then s.since else s.node.log.length) s.node
        rw [if_pos he, he]
        exact ⟨rest, hd, hheld⟩
    · obtain ⟨hname, hc⟩ := hx.resolve_left he
      refine ⟨htid, hname, ?_, fun hr => absurd hr (send_open env x)⟩
      show ∃ rest, x.Detects env rest ∧
        x.NodeHeld env rest (if x = s.transfer then s.since else s.node.log.length) s.node
      rw [if_neg he]
      exact ⟨_, hc.detects, hc.held⟩
  | timeout =>
    cases hs
    refine ⟨h.tid, h.name, ⟨rest, hd, hheld⟩, fun hr => h.acked ?_⟩
    by_contra hopen
    exact Transfer.onTimeout_open hopen hr
  | batch pdus =>
    simp only [System.step] at hs
    split at hs
    · next hb =>
      cases hs
      refine ⟨h.tid, h.name, ⟨rest, hd, hheld⟩, fun hr => ?_⟩
      have hopen : s.phase ≠ .returned := fun hp => by
        rw [hp] at hb
        exact hb.1
      -- the session returns on a final ACK that is not an old one
      obtain ⟨pdu, hpdu, hack⟩ := Transfer.onBatch_returned hopen hr
      exact ⟨pdu, isFinalAck_of_acksChunk hack, hm pdu hpdu hack⟩
    · cases hs
  | receiver a =>
    simp only [System.step] at hs
    split at hs
    · obtain ⟨⟨ms', n'⟩, hn, hr⟩ := Option.map_eq_some_iff.mp hs
      cases hr
      have htid : s.transfer.tid ≠ 0 := by
        rw [h.tid]
        decide
      refine ⟨h.tid, h.name, ⟨rest, hd, hheld.step hd htid hm hn⟩, fun hr => ?_⟩
      obtain ⟨pdu, hf, hmem⟩ := h.acked hr
      exact ⟨pdu, hf, ((Node.step_log hn).drop s.since).subset hmem⟩
    · cases hs

/-- **A session that returns leaves its file in place**, in every run of moves that are proper:
the destination is the source file from then on, until a session of another transfer starts. -/
theorem run_returned {n : Node} {x : Transfer} (htid : x.tid = 1) (hname : x.NameFits env)
    (hc : x.Clear env n)
    (h : Run env (Proper env) (first env n x) hist s) (hr : s.phase = .returned) :
    s.node.disk.files (s.transfer.recvPath env) = some s.transfer.file := by
  have hinv : Inv env s := h.inv (I := fun _ s => Inv env s) (inv_first htid hname hc)
    fun _ _ _ _ _ hi hm hs => hi.step hm hs
  rw [← hinv.name.path_eq]
  obtain ⟨rest, -, hheld⟩ := hinv.held
  obtain ⟨pdu, hf, hmem⟩ := hinv.acked hr
  exact hheld.kept.final pdu hf hmem

/-! ## Sessions of one transfer -/

/-- Every session sends `x`. -/
def Retries (x : Transfer) (s : System) (m : Move) : Prop := Usual s m ∧ ∀ y, m = .start y → y = x

/-- All that is on its way belongs to `x`. -/
structure Sole (env : Env) (x : Transfer) (s : System) : Prop where
  transfer : s.transfer = x
  line : ∀ raw ∈ s.line, x.Emits env.crc32 raw
  since : s.since = 0

theorem Sole.react {x : Transfer} (h : Sole env x s) {r : Reaction} (hr : x.Reacts env.crc32 r) :
    Sole env x (s.react r) := by
  refine ⟨h.transfer, fun raw hraw => ?_, h.since⟩
  rcases List.mem_append.mp hraw with hraw | hraw
  · exact h.line raw hraw
  · exact hr raw hraw

theorem Sole.step {x : Transfer} (h : Sole env x s) (hm : Retries x s m)
    (hs : s.step env m = some (ms, s')) :
    Sole env x s' ∧ Proper env s m := by
  cases m with
  | start y =>
    obtain rfl := hm.2 y rfl
    cases hs
    have h1 : Sole env y { s with
        transfer := y, since := if y = s.transfer then s.since else s.node.log.length } := by
      refine ⟨rfl, h.line, ?_⟩
      show (if y = s.transfer then s.since else s.node.log.length) = 0
      rw [if_pos h.transfer.symm, h.since]
    exact ⟨h1.react Transfer.reacts_send, hm.1, .inl h.transfer.symm⟩
  | timeout =>
    cases hs
    refine ⟨h.react ?_, trivial⟩
    rw [h.transfer]
    exact Transfer.reacts_onTimeout _
  | batch pdus =>
    simp only [System.step] at hs
    split at hs
    · next hb =>
      cases hs
      refine ⟨h.react ?_, fun pdu hpdu _ => ?_⟩
      · rw [h.transfer]
        exact Transfer.reacts_onBatch _ _
      · obtain ⟨e, he, hsent⟩ := List.mem_filterMap.mp (hb.2 pdu hpdu)
        rw [h.since, List.drop_zero]
        cases e with
        | sent raw => cases hsent; exact he
        | journal u => cases hsent
    · cases hs
  | receiver a =>
    simp only [System.step] at hs
    split at hs
    · next ha =>
      obtain ⟨⟨ms', n'⟩, -, hr⟩ := Option.map_eq_some_iff.mp hs
      cases hr
      refine ⟨⟨h.transfer, h.line, h.since⟩, ?_⟩
      show a.Within (s.transfer.Emits env.crc32) Oracle.Smooth
      rw [h.transfer]
      cases a with
      | recv raw o cut => exact ⟨h.line raw (ha raw rfl), hm.1.2⟩
      | crash => trivial
      | boot garbage o cut => exact hm.1
    · cases hs

/-- Sessions of one transfer are always proper. -/
theorem run_proper {n : Node} {x : Transfer} (hn : n.log = [])
    (h : Run env (Retries x) (first env n x) hist s) :
    Run env (Proper env) (first env n x) hist s := by
  have h₀ : Sole env x (first env n x) := ⟨rfl, Transfer.reacts_send, by rw [first, hn]; rfl⟩
  exact (h.mono_inv (I := Sole env x) h₀ (fun _ _ _ _ hi hm hs => (hi.step hm hs).1)
    fun _ _ _ _ hi hm hs => (hi.step hm hs).2).1

/-! ## Two files of one byte -/

/-- The session of a file of one byte, the receiver just switched on. -/
def session : List Move :=
  [.receiver powerOn, .receiver (deliver ((Transfer.small [0x61]).metadataRaw sampleEnv.crc32)),
    .receiver (deliver (Transfer.small [0x61]).queryPdu), .batch [ResumeInfoPdu.raw ⟨1, 0⟩],
    .receiver (deliver ((Transfer.small [0x61]).packetRaw 0 0)),
    .receiver (deliver ((Transfer.small [0x61]).eofPdu sampleEnv.crc32)),
    .batch [AckPdu.raw ⟨1, 0⟩, AckPdu.raw ⟨1, uint32Max⟩]]

/-- Moves carried out from the beginning of that session on. -/
def play (moves : List Move) : Option (List Moment × System) :=
  Machine.exec (System.step sampleEnv) (first sampleEnv unusedNode (Transfer.small [0x61])) moves

theorem usual_of_smooth {raw : Bytes} (s : System) : s.Usual (.receiver (deliver raw)) :=
  ⟨trivial, smooth_noFaults⟩

theorem usual_session : ∀ m ∈ session, (∀ s : System, s.Usual m) ∧ ∀ y, m ≠ .start y := by
  intro m hm
  unfold session at hm
  simp only [List.mem_cons, List.not_mem_nil, or_false] at hm
  rcases hm with rfl | rfl | rfl | rfl | rfl | rfl | rfl
  · exact ⟨fun _ => smooth_noFaults, fun y h => by cases h⟩
  · exact ⟨fun s => usual_of_smooth s, fun y h => by cases h⟩
  · exact ⟨fun s => usual_of_smooth s, fun y h => by cases h⟩
  · exact ⟨fun _ => trivial, fun y h => by cases h⟩
  · exact ⟨fun s => usual_of_smooth s, fun y h => by cases h⟩
  · exact ⟨fun s => usual_of_smooth s, fun y h => by cases h⟩
  · exact ⟨fun _ => trivial, fun y h => by cases h⟩

theorem nameFits_small : (Transfer.small [0x61]).NameFits sampleEnv where
  recvDir := by simp [sampleEnv]
  name := by simp [Transfer.small, asciiEncode]
  length := by decide
  path := by decide

/-- Another file, of another name. -/
def another : Transfer := { Transfer.small [0x62] with destFilename := ['b'] }

/-- A session of it, after the receiver has been switched off and on again. -/
def secondSession : List Move :=
  [.receiver .crash, .receiver powerOn, .start another,
    .receiver (deliver (another.metadataRaw sampleEnv.crc32)), .receiver (deliver another.queryPdu),
    .batch [ResumeInfoPdu.raw ⟨1, 0⟩], .receiver (deliver (another.packetRaw 0 0)),
    .receiver (deliver (another.eofPdu sampleEnv.crc32)),
    .batch [AckPdu.raw ⟨1, 0⟩, AckPdu.raw ⟨1, uint32Max⟩]]

/-- What of `Proper` can be computed when the second session runs. -/
def Checked (s : System) : Move → Prop
  | .start x => x = another ∧ s.node.disk.stateBin = none ∧
      (s.node.world?.all fun w => !w.rx.transferActive && w.rx.lastAckedId != 1) = true ∧
      s.node.disk.files (x.path sampleEnv) = none
  | .receiver (.recv _ _ _) => s.transfer = another
  | .batch pdus => ∀ pdu ∈ pdus, acksChunk ackFinal pdu = true → .sent pdu ∈ s.node.log.drop s.since
  | _ => True

instance (s : System) (m : Move) : Decidable (s.Checked m) :=
  match m with
  | .start x => inferInstanceAs (Decidable (x = another ∧ _ ∧ _ ∧ _))
  | .receiver (.recv _ _ _) => inferInstanceAs (Decidable (s.transfer = another))
  | .receiver .crash => isTrue trivial
  | .receiver (.boot _ _ _) => isTrue trivial
  | .batch pdus => inferInstanceAs (Decidable (∀ pdu ∈ pdus, _))
  | .timeout => isTrue trivial

theorem nameFits_another : another.NameFits sampleEnv where
  recvDir := by simp [sampleEnv]
  name := by simp [another, asciiEncode]
  length := by decide
  path := by decide

theorem Checked.proper {s : System} {m : Move} (h : s.Checked m) (hm : m ∈ secondSession) :
    s.Proper sampleEnv m := by
  have harrives {raw : Bytes} (ht : s.transfer = another) (hraw : another.Emits sampleEnv.crc32 raw) :
      s.Proper sampleEnv (.receiver (deliver raw)) := by
    show (deliver raw).Within (s.transfer.Emits sampleEnv.crc32) Oracle.Smooth
    rw [ht]
    exact ⟨hraw, smooth_noFaults⟩
  simp only [secondSession, List.mem_cons, List.not_mem_nil, or_false] at hm
  rcases hm with rfl | rfl | rfl | rfl | rfl | rfl | rfl | rfl | rfl
  · trivial
  · exact smooth_noFaults
  · obtain ⟨-, hj, hidle, hfile⟩ := h
    refine ⟨rfl, .inr ⟨nameFits_another, hj, fun w hw => ?_, .inl ?_⟩⟩
    · rw [hw] at hidle
      have hrx : w.rx.transferActive = false ∧ w.rx.lastAckedId ≠ 1 := by
        simpa [Node.world?] using hidle
      exact hrx
    · rw [hfile]
      exact Transfer.surplus_none _
  · exact harrives h (Transfer.emits_metadataRaw (by decide +kernel))
  · exact harrives h .query
  · exact h
  · exact harrives h (Transfer.emits_packetRaw (by decide +kernel))
  · exact harrives h .eof
  · exact h

/-- Two sessions, one after the other, each with its own file: both return, and at each return the
file is there. -/
theorem run_returned_small : ∃ hist s hist' s',
    Run sampleEnv (Proper sampleEnv) (first sampleEnv unusedNode (Transfer.small [0x61])) hist s ∧
      s.phase = .returned ∧ s.transfer = Transfer.small [0x61] ∧
      s.node.disk.files (s.transfer.recvPath sampleEnv) = some s.transfer.file ∧
    Run sampleEnv (Proper sampleEnv) (first sampleEnv unusedNode (Transfer.small [0x61]))
      (hist ++ hist') s' ∧ s'.phase = .returned ∧ s'.transfer = another ∧
      s'.node.disk.files (s'.transfer.recvPath sampleEnv) = some s'.transfer.file := by
  have hrun : (play session).any (fun r =>
      decide (r.2.phase = .returned) && decide (r.2.transfer = Transfer.small [0x61]) &&
        allows (System.step sampleEnv) Checked r.2 secondSession &&
        (Machine.exec (System.step sampleEnv) r.2 secondSession).any fun r' =>
          decide (r'.2.phase = .returned) && decide (r'.2.transfer = another)) = true := by
    decide +kernel
  simp only [Option.any_eq_true, Prod.exists, Bool.and_eq_true, decide_eq_true_eq] at hrun
  obtain ⟨hist, s, hr, ⟨⟨hphase, ht⟩, hallows⟩, hist', s', hr', hphase', ht'⟩ := hrun
  have hretries : Run sampleEnv (Retries (Transfer.small [0x61]))
      (first sampleEnv unusedNode (Transfer.small [0x61])) hist s :=
    Machine.exec_run hr fun m hm s _ _ =>
      ⟨(usual_session m hm).1 s, fun y hy => absurd hy ((usual_session m hm).2 y)⟩
  have hproper := run_proper rfl hretries
  have hproper' := hproper.trans ((Machine.exec_run_mem hr' hallows).mono fun _ _ h => h.1.proper h.2)
  have hclear : (Transfer.small [0x61]).Clear sampleEnv unusedNode := by
    refine ⟨rfl, fun w hw => ?_, .inl (Transfer.surplus_none _)⟩
    cases hw
  exact ⟨hist, s, hist', s', hproper, hphase, ht,
    run_returned rfl nameFits_small hclear hproper hphase, hproper', hphase', ht',
    run_returned rfl nameFits_small hclear hproper' hphase'⟩

/-- Its session while the receiver still runs: the Metadata is answered by the final ACK of the first. -/
def anotherSession : List Move :=
  [.start another, .receiver (deliver (another.metadataRaw sampleEnv.crc32)), .timeout, .timeout, .timeout]

/-- The second of two sessions returns without a trace of its file. -/
theorem not_run_returned :
    ¬ ∀ (env : Env) (n : Node) (x : Transfer) (hist ms : List Moment) (s s' : System)
    (pdus : List Bytes), n.Fresh → x.tid = 1 → Run env Usual (first env n x) hist s →
      s.step env (.batch pdus) = some (ms, s') → s'.phase = .returned →
        s'.node.disk.files (s'.transfer.recvPath env) = some s'.transfer.file := by
  intro h
  have hrun : (play (session ++ anotherSession)).any (fun r =>
      (r.2.step sampleEnv (.batch [AckPdu.raw ⟨1, uint32Max⟩])).any fun r' =>
        decide (r'.2.phase = .returned) &&
          decide (r'.2.node.disk.files (r'.2.transfer.recvPath sampleEnv) ≠ some r'.2.transfer.file)) = true := by
    decide +kernel
  simp only [Option.any_eq_true, Prod.exists, Bool.and_eq_true, decide_eq_true_eq] at hrun
  obtain ⟨hist, s, hr, ms, s', hs, hphase, hfile⟩ := hrun
  have hok : Run sampleEnv Usual (first sampleEnv unusedNode (Transfer.small [0x61])) hist s := by
    refine Machine.exec_run hr fun m hm s _ _ => ?_
    rcases List.mem_append.mp hm with hm | hm
    · exact (usual_session m hm).1 s
    · unfold anotherSession at hm
      simp only [List.mem_cons, List.not_mem_nil, or_false] at hm
      rcases hm with rfl | rfl | rfl | rfl | rfl
      · exact rfl
      · exact usual_of_smooth s
      · trivial
      · trivial
      · trivial
  exact hfile (h sampleEnv unusedNode (Transfer.small [0x61]) hist ms s s' _ unusedNode_fresh rfl
    hok hs hphase)

end System

end Cfdp
