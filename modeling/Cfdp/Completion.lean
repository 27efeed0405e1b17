import Cfdp.Stack

/-!
# The programs can always finish

From every state that the two programs reach on a noisy but tame line, some actions complete
the transfer, on a line that from then on neither loses nor corrupts anything and keeps the order of
the bytes (`run_completes`). The way there: a process is started if none runs, a session empties
the line in both directions, and the next one sends what is missing, chunk by chunk.
-/

namespace Cfdp

open Crash Prog Machine LittleEndian ByteStream

/-- On PDUs that are not empty, `any` is `any`. -/
theorem anyPdu_eq {test : Bytes → Bool} {batch : List Bytes} (hne : ∀ pdu ∈ batch, pdu ≠ []) :
    anyPdu test batch = some (batch.any test) := by
  induction batch with
  | nil => rfl
  | cons pdu batch ih =>
    unfold anyPdu
    rw [if_neg (hne pdu List.mem_cons_self), List.any_cons]
    cases ht : test pdu with
    | true => rfl
    | false =>
      rw [if_neg Bool.false_ne_true, Bool.false_or]
      exact ih fun q hq => hne q (List.mem_cons_of_mem pdu hq)

theorem frame_append_ne_nil (pdu rest : Bytes) : frame pdu ++ rest ≠ [] := by
  intro h
  exact List.cons_ne_nil _ _ (List.append_eq_nil_iff.mp h).1

theorem MainState.running_after {main : MainState} (h : main.running = true) (active : Bool) :
    (main.after active).running = true := by
  unfold MainState.after
  cases main with
  | loop wasActive =>
    cases active with
    | true => rfl
    | false => cases wasActive <;> rfl
  | linger => rfl
  | stopped => cases h
  | exited status => cases h

namespace Transfer

variable {env : Env} {x : Transfer} {w : World}

/-- PDUs that arrive over the sender's line are all handled to their end. -/
theorem Live.receivesAll (hl : x.Live env w) (hx : x.WellFormed) (hc : Crc.Composes env.crc32)
    {raws : List Bytes} (h : ∀ raw ∈ raws, x.Arrives env raw) :
    ∃ w', w.receiveAll env (raws.map fun raw => (raw, noFaults)) = some w' := by
  induction raws generalizing w with
  | nil => exact ⟨w, rfl⟩
  | cons raw raws ih =>
    obtain ⟨d, pdu, hemits, hspares, hw⟩ := h raw List.mem_cons_self
    have htol := tolerates_written hx w.rx hemits hspares hw
    obtain ⟨w₁, hw₁, hl₁, -⟩ := hl.tolerates hx hc smooth_noFaults htol
    obtain ⟨w', hw'⟩ := ih hl₁ fun r hr => h r (List.mem_cons_of_mem raw hr)
    refine ⟨w', ?_⟩
    rw [List.map_cons, World.receiveAll_cons, hw₁]
    exact hw'

end Transfer

/-- Sends of which none is lost or corrupted. -/
theorem Transport.transmit_intact {d : Transport.Dice} {pdus : List Bytes} {s : ByteStream}
    (hl : d.lost = false) (hc : d.corrupted = false) (h : ∀ pdu ∈ pdus, pdu.length < 2 ^ 32) :
    Transport.transmit (pdus.map fun pdu => (d, pdu)) s = (s.write (pdus.flatMap frame), true) := by
  induction pdus generalizing s with
  | nil => simp [Transport.transmit, ByteStream.write]
  | cons pdu pdus ih =>
    have hintact : Transport.Intact (d, pdu) := ⟨hl, hc, h pdu List.mem_cons_self⟩
    rw [List.map_cons, Transport.transmit, hintact.send]
    simp only []
    rw [ih fun q hq => h q (List.mem_cons_of_mem pdu hq), List.flatMap_cons]
    simp only [ByteStream.write, List.append_assoc]

namespace Stack

variable {env : Env} {x : Transfer} {s s' : Stack} {a : StackAction} {ms hist : List Moment}
  {w w' : World} {P : Stack → Prop} {phase : Phase}

/-- Nothing is lost or corrupted, no call fails, and no process is killed. -/
def Intact : StackAction → Prop
  | .send sends | .timeout sends | .answer sends | .drained sends => ∀ q ∈ sends, q.1 = intact
  | .read => True
  | .receive o cut => o = noFaults ∧ cut = none
  | .process a => a = Receiver.begin

theorem Intact.tame (h : Intact a) : Tame env x a := by
  have hspares {sends : List (Transport.Dice × Bytes)} (h : ∀ q ∈ sends, q.1 = intact) :
      ∀ q ∈ sends, x.Spares env q.1 q.2 := by
    intro q hq hc
    rw [h q hq] at hc
    cases hc
  cases a with
  | send sends => exact hspares h
  | timeout sends => exact hspares h
  | answer sends => exact hspares h
  | read => trivial
  | drained sends => exact hspares h
  | receive o cut =>
    obtain ⟨rfl, -⟩ := h
    exact smooth_noFaults
  | process a =>
    obtain rfl : a = Receiver.begin := h
    exact ⟨nofun, smooth_noFaults⟩

/-- The session has returned. -/
def Returned (s : Stack) : Prop := ∃ batch, s.session = some ⟨.returned, batch⟩

/-- What the rest of a run may be like. -/
abbrev Follows (env : Env) (x : Transfer) (s : Stack) (P : Stack → Prop) : Prop :=
  Reaches (step env x) (fun _ a => Intact a) s P

theorem Inv.after (h : Inv env x s) (hx : x.WellFormed) (hc : Crc.Composes env.crc32)
    (hcs : x.chunkSize ≤ 2 ^ 29) (hr : Run env x Intact s hist s') : Inv env x s' :=
  (h.run hx hc hcs (hr.mono fun _ _ ha => ha.tame)).1

/-! ## Single reactions -/

/-- The sends of a reaction, all intact. -/
def sending (r : Reaction) : List (Transport.Dice × Bytes) := r.1.map fun pdu => (intact, pdu)

/-- The stack after them. -/
def reacted (s : Stack) (r : Reaction) : Stack :=
  { s with up := s.up.write (r.1.flatMap frame), session := some ⟨r.2, []⟩ }

theorem intact_sending {r : Reaction} : ∀ q ∈ sending r, q.1 = intact := by
  intro q hq
  obtain ⟨pdu, -, rfl⟩ := List.mem_map.mp hq
  rfl

theorem react_sending {r : Reaction} (hx : x.WellFormed) (hr : x.Reacts env.crc32 r) (s : Stack) :
    s.react r (sending r) = some ([], s.reacted r) := by
  have hpdus : (sending r).map Prod.snd = r.1 := by
    unfold sending
    rw [List.map_map]
    exact List.map_id' r.1
  have htransmit := Transport.transmit_intact (d := intact) (s := s.up) rfl rfl fun pdu hpdu =>
    (Transfer.length_emits hx (hr pdu hpdu)).2
  unfold Stack.react
  rw [if_pos hpdus, sending, htransmit]
  rfl

/-- A session begins. -/
theorem run_send (env : Env) (hx : x.WellFormed) (s : Stack) :
    Run env x Intact s [] (s.reacted (x.send env.crc32)) := by
  have ha : Intact (.send (sending (x.send env.crc32))) := intact_sending
  exact Machine.Run.start.step ha (react_sending hx Transfer.reacts_send s)

/-- The session times out. -/
theorem run_timeout (env : Env) (hx : x.WellFormed) (hu : s.session = some ⟨phase, []⟩) :
    Run env x Intact s [] (s.reacted (x.onTimeout env.crc32 phase)) := by
  have ha : Intact (.timeout (sending (x.onTimeout env.crc32 phase))) := intact_sending
  have hstep : s.step env x (.timeout (sending (x.onTimeout env.crc32 phase))) =
      some ([], s.reacted (x.onTimeout env.crc32 phase)) := by
    simp only [Stack.step]
    rw [hu]
    exact react_sending hx (Transfer.reacts_onTimeout phase) s
  exact Machine.Run.start.step ha hstep

/-- The session reads the answer to its query. -/
theorem run_answer {attempt : Nat} {pdu : Bytes} {rest : Bytes} (hx : x.WellFormed)
    (hu : s.session = some ⟨.query attempt, []⟩) (hlen : pdu.length < 2 ^ 32)
    (hdown : s.down.pending = frame pdu ++ rest) :
    ∃ down : ByteStream, down.pending = rest ∧
      Run env x Intact s [] ({ s with down }.reacted (x.onBatch env.crc32 (.query attempt) [pdu])) := by
  obtain ⟨down, hrecv, hrest⟩ := Transport.reads_recv hlen s.down rest hdown
  have hne : s.down.pending ≠ [] := by
    rw [hdown]
    exact frame_append_ne_nil pdu _
  have ha : Intact (.answer (sending (x.onBatch env.crc32 (.query attempt) [pdu]))) := intact_sending
  have hstep : s.step env x (.answer (sending (x.onBatch env.crc32 (.query attempt) [pdu]))) =
      some ([], { s with down }.reacted (x.onBatch env.crc32 (.query attempt) [pdu])) := by
    simp only [Stack.step]
    rw [hu]
    simp only [Stack.recv]
    rw [if_neg hne, hrecv]
    exact react_sending hx (Transfer.reacts_onBatch _ _) _
  exact ⟨down, hrest, Machine.Run.start.step ha hstep⟩

/-- A batch is complete. -/
theorem run_drained (env : Env) {batch : List Bytes} (hx : x.WellFormed)
    (hu : s.session = some ⟨phase, batch⟩) (hr : phase.Reads batch) :
    Run env x Intact s [] (s.reacted (x.onBatch env.crc32 phase batch)) := by
  have ha : Intact (.drained (sending (x.onBatch env.crc32 phase batch))) := intact_sending
  have hstep : s.step env x (.drained (sending (x.onBatch env.crc32 phase batch))) =
      some ([], s.reacted (x.onBatch env.crc32 phase batch)) := by
    simp only [Stack.step]
    rw [hu]
    simp only []
    rw [if_pos hr]
    exact react_sending hx (Transfer.reacts_onBatch phase batch) s
  exact Machine.Run.start.step ha hstep

/-! ## Emptying the line -/

/-- Where `send` reads batches. -/
def Batches (phase : Phase) : Prop := (∃ ci, phase = .chunk ci) ∨ phase = .final

/-- The session reads all that is pending. -/
theorem run_reads (env : Env) (x : Transfer) {batch pdus : List Bytes} (hp : Batches phase)
    (hu : s.session = some ⟨phase, batch⟩)
    (hlen : ∀ pdu ∈ pdus, pdu.length < 2 ^ 32) (hdown : s.down.pending = pdus.flatMap frame) :
    ∃ hist down, Run env x Intact s hist { s with down, session := some ⟨phase, batch ++ pdus⟩ } ∧
      down.pending = [] := by
  induction pdus generalizing s batch with
  | nil =>
    refine ⟨[], s.down, ?_, hdown⟩
    rw [List.append_nil, ← hu]
    exact .start
  | cons pdu pdus ih =>
    rw [List.flatMap_cons] at hdown
    obtain ⟨down₁, hrecv, hrest⟩ := Transport.reads_recv (hlen pdu List.mem_cons_self) s.down _ hdown
    have hne : s.down.pending ≠ [] := by
      rw [hdown]
      exact frame_append_ne_nil pdu _
    let s₁ : Stack := { s with down := down₁, session := some ⟨phase, batch ++ [pdu]⟩ }
    have hstep : s.step env x .read = some ([], s₁) := by
      rcases hp with ⟨ci, rfl⟩ | rfl <;>
      · simp only [Stack.step]
        rw [hu]
        simp only [Stack.recv]
        rw [if_neg hne, hrecv]
    obtain ⟨hist, down, hrun, hempty⟩ := ih (s := s₁) rfl
      (fun q hq => hlen q (List.mem_cons_of_mem pdu hq)) hrest
    have ha : Intact .read := trivial
    have h₁ : Run env x Intact s ([] ++ []) s₁ := Machine.Run.start.step ha hstep
    rw [List.append_assoc, List.singleton_append] at hrun
    exact ⟨_, down, h₁.trans hrun, hempty⟩

/-- The process reads all that is pending, and answers. -/
theorem run_receives {raws : List Bytes} (hn : s.receiver.node = .up w)
    (hrun : s.receiver.main.running = true) (hlen : ∀ raw ∈ raws, raw.length < 2 ^ 32)
    (hup : s.up.pending = raws.flatMap frame)
    (hw : w.receiveAll env (raws.map fun raw => (raw, noFaults)) = some w') :
    ∃ hist s' out, Run env x Intact s hist s' ∧ s'.receiver.node = .up w' ∧
      s'.receiver.main.running = true ∧ s'.session = s.session ∧ s'.up.pending = [] ∧
      w'.sent = w.sent ++ out ∧ s'.down.pending = s.down.pending ++ out.flatMap frame := by
  induction raws generalizing s w with
  | nil =>
    cases hw
    exact ⟨[], s, [], .start, hn, hrun, rfl, hup, (List.append_nil _).symm, (List.append_nil _).symm⟩
  | cons raw raws ih =>
    rw [List.flatMap_cons] at hup
    rw [List.map_cons, World.receiveAll_cons] at hw
    obtain ⟨w₁, hw₁, hw⟩ := Option.bind_eq_some_iff.mp hw
    obtain ⟨up, hrecv, hrest⟩ := UartTransport.reads_recv (hlen raw List.mem_cons_self) s.up _ hup
    have hne : s.up.pending ≠ [] := by
      rw [hup]
      exact frame_append_ne_nil raw _
    obtain ⟨ms, hnode⟩ := World.receive_eq_some.mp hw₁
    obtain ⟨out₁, hsent₁, -⟩ := Node.brief_step hnode
    -- one step of the process
    let r : Receiver := ⟨.up w₁, s.receiver.main.after w₁.rx.transferActive⟩
    have hr : s.receiver.step env (.pdu raw noFaults none) = some (ms, r) :=
      Receiver.step_eq_some.mpr ⟨hrun, by rw [hn]; exact hnode, rfl⟩
    let s₁ : Stack := { s with
      receiver := r, up, down := UartTransport.sendAll (w₁.sent.drop w.sent.length) s.down }
    have hstep : s.step env x (.receive noFaults none) = some (ms, s₁) := by
      simp only [Stack.step]
      rw [if_neg hne, hrecv]
      simp only [Stack.main]
      rw [hr, hn]
      rfl
    have ha : Intact (.receive noFaults none) := ⟨rfl, rfl⟩
    have h₁ : Run env x Intact s ([] ++ ms) s₁ := Machine.Run.start.step ha hstep
    have hdown : s₁.down.pending = s.down.pending ++ out₁.flatMap frame := by
      have hsent : w₁.sent = w.sent ++ out₁ := hsent₁
      show (UartTransport.sendAll (w₁.sent.drop w.sent.length) s.down).pending = _
      rw [hsent, List.drop_left, UartTransport.sendAll_eq]
      rfl
    obtain ⟨hist, s', out, hrun', hn', hmain', hu', hup', hsent', hdown'⟩ :=
      ih (s := s₁) rfl (MainState.running_after hrun _)
        (fun q hq => hlen q (List.mem_cons_of_mem raw hq)) hrest hw
    refine ⟨_, s', out₁ ++ out, h₁.trans hrun', hn', hmain', hu', hup', ?_, ?_⟩
    · rw [hsent', show w₁.sent = w.sent ++ out₁ from hsent₁, List.append_assoc]
    · rw [hdown', hdown, List.flatMap_append, List.append_assoc]

/-- Three attempts of `_query_resume` time out, and the session sends chunk 0. -/
theorem run_timeouts (env : Env) (hx : x.WellFormed) (hu : s.session = some ⟨.query 0, []⟩) :
    ∃ s', Run env x Intact s [] s' ∧ s'.session = some ⟨.chunk 0, []⟩ ∧ s'.receiver = s.receiver ∧
      s'.down = s.down := by
  have hphase : (x.sendChunk env.crc32 0).2 = .chunk 0 := by
    rw [hx.sendChunk_eq env.crc32 hx.totalChunks_pos]
  have h₁ := run_timeout env hx hu
  have h₂ := run_timeout env (s := s.reacted (x.onTimeout env.crc32 (.query 0))) hx rfl
  have h₃ := run_timeout env
    (s := (s.reacted (x.onTimeout env.crc32 (.query 0))).reacted (x.onTimeout env.crc32 (.query 1))) hx rfl
  refine ⟨_, (h₁.trans h₂).trans h₃, ?_, rfl, rfl⟩
  show some (Session.mk (x.sendChunk env.crc32 0).2 []) = _
  rw [hphase]

/-- The session reads what is pending as one batch. -/
theorem run_batch (env : Env) {pdus : List Bytes} (hx : x.WellFormed) (hp : Batches phase)
    (hu : s.session = some ⟨phase, []⟩) (hne : pdus ≠ []) (hlen : ∀ pdu ∈ pdus, pdu.length < 2 ^ 32)
    (hdown : s.down.pending = pdus.flatMap frame) :
    ∃ hist s', Run env x Intact s hist s' ∧ s'.receiver = s.receiver ∧
      s'.session = some ⟨(x.onBatch env.crc32 phase pdus).2, []⟩ ∧
      s'.up.pending = s.up.pending ++ (x.onBatch env.crc32 phase pdus).1.flatMap frame ∧
      s'.down.pending = [] := by
  obtain ⟨hist, down, hread, hempty⟩ := run_reads env x hp hu hlen hdown
  have hreads : phase.Reads ([] ++ pdus) := by
    rcases hp with ⟨ci, rfl⟩ | rfl
    · exact hne
    · exact hne
  have hdrain := run_drained env
    (s := { s with down, session := some ⟨phase, [] ++ pdus⟩ }) hx rfl hreads
  exact ⟨_, _, hread.trans hdrain, rfl, rfl, rfl, hempty⟩

/-- A batch with a final ACK. -/
theorem onBatch_final {batch : List Bytes} (hp : Batches phase) (hne : ∀ pdu ∈ batch, pdu ≠ [])
    (hf : batch.any (acksChunk ackFinal) = true) : x.onBatch env.crc32 phase batch = ([], .returned) := by
  have hany : anyPdu (acksChunk ackFinal) batch = some true := by rw [anyPdu_eq hne, hf]
  rcases hp with ⟨ci, rfl⟩ | rfl
  · rw [Transfer.onBatch, Transfer.onChunkBatch, hany]
  · rw [Transfer.onBatch, Transfer.onFinalBatch, hany]

/-- A batch with the ACK of the chunk, and no final ACK. -/
theorem onBatch_acked {batch : List Bytes} {ci : Nat} (hne : ∀ pdu ∈ batch, pdu ≠ [])
    (hf : batch.any (acksChunk ackFinal) = false) (ha : batch.any (acksChunk ci) = true) :
    x.onBatch env.crc32 (.chunk ci) batch = x.sendChunk env.crc32 (ci + 1) := by
  rw [Transfer.onBatch, Transfer.onChunkBatch, anyPdu_eq hne, hf, anyPdu_eq hne, ha]
  rfl

theorem acksChunk_final (t : UInt32) : acksChunk ackFinal (AckPdu.raw ⟨t, uint32Max⟩) = true := by
  rw [acksChunk_raw]
  decide

/-! ## The next session -/

/-- A process runs, or is started. -/
theorem Inv.starts (h : Inv env x s) :
    ∃ hist s', Run env x Intact s hist s' ∧ s'.receiver.main.running = true := by
  cases hrun : s.receiver.main.running with
  | true => exact ⟨[], s, .start, hrun⟩
  | false =>
    have hdown : s.receiver.node.world? = none := by
      have hp := h.receiver.place
      cases hm : s.receiver.main with
      | stopped => rw [hm] at hp; exact hp
      | loop wasActive => rw [hm] at hrun; cases hrun
      | linger => rw [hm] at hrun; cases hrun
      | exited status => rw [hm] at hp; exact hp.1
    obtain ⟨disk, log, hn⟩ := Node.world?_eq_none.mp hdown
    obtain ⟨ms, w, hboot, -⟩ := boots env disk log .blank noFaults
    have hr : s.receiver.step env Receiver.begin = some (ms, ⟨.up w, .loop false⟩) := by
      refine Receiver.step_eq_some.mpr ⟨?_, by rw [hn]; exact hboot, rfl⟩
      show (!s.receiver.main.running) = true
      rw [hrun]
      rfl
    have hstep : ∃ s', s.step env x (.process Receiver.begin) = some (ms, s') ∧
        s'.receiver.main = .loop false := by
      simp only [Receiver.begin, Stack.step, Stack.main]
      rw [show s.receiver.step env (.start .blank noFaults none) = _ from hr]
      exact ⟨_, rfl, rfl⟩
    obtain ⟨s', hs', hm⟩ := hstep
    have ha : Intact (.process Receiver.begin) := rfl
    exact ⟨_, s', Machine.Run.start.step ha hs', by rw [hm]; rfl⟩

/-- A session empties the line, and another one begins. -/
theorem Inv.empties (h : Inv env x s) (hx : x.WellFormed) (hc : Crc.Composes env.crc32)
    (hcs : x.chunkSize ≤ 2 ^ 29) (hrun : s.receiver.main.running = true) :
    ∃ hist s', Run env x Intact s hist s' ∧ s'.receiver.main.running = true ∧
      s'.session = some ⟨.query 0, []⟩ ∧ s'.up.pending = (x.send env.crc32).1.flatMap frame ∧
      s'.down.pending = [] := by
  have hphase := congrArg Prod.snd (System.send_eq hx env)
  have h₁ := run_send env hx s
  obtain ⟨s₂, h₂, hu₂, hr₂, -⟩ := run_timeouts env (s := s.reacted (x.send env.crc32)) hx
    (by rw [reacted, hphase])
  have hi₂ := h.after hx hc hcs (h₁.trans h₂)
  have hrun₂ : s₂.receiver.main.running = true := by
    rw [hr₂]
    exact hrun
  -- the way up
  obtain ⟨w, hn⟩ := hi₂.receiver.up hrun₂
  obtain ⟨raws, hup, harrives⟩ := hi₂.up
  obtain ⟨w', hw'⟩ := (hi₂.receiver.live hn).receivesAll hx hc fun raw hraw => (harrives raw hraw).2
  obtain ⟨hist₃, s₃, out, h₃, hn₃, hrun₃, hu₃, hup₃, -, -⟩ :=
    run_receives (x := x) hn hrun₂ (fun raw hraw => (harrives raw hraw).1) hup hw'
  have hi₃ := hi₂.after hx hc hcs h₃
  -- the way down
  obtain ⟨pdus, hdown, hsent⟩ := hi₃.down
  obtain ⟨hist₄, down, h₄, hempty⟩ := run_reads env x (.inl ⟨0, rfl⟩) (hu₃.trans hu₂)
    (fun pdu hpdu => (hsent pdu hpdu).1) hdown
  have h₅ := run_send env hx { s₃ with down, session := some ⟨.chunk 0, [] ++ pdus⟩ }
  refine ⟨_, _, (((h₁.trans h₂).trans h₃).trans h₄).trans h₅, hrun₃, ?_, ?_, hempty⟩
  · unfold reacted
    rw [hphase]
  · show s₃.up.pending ++ _ = _
    rw [hup₃, List.nil_append]

/-- What the receiver has sent can be read. -/
theorem Inv.readable (h : Inv env x s) {pdus : List Bytes} (hs : ∀ pdu ∈ pdus, pdu ∈ s.receiver.node.sent) :
    (∀ pdu ∈ pdus, pdu ≠ []) ∧ ∀ pdu ∈ pdus, pdu.length < 2 ^ 32 :=
  ⟨fun pdu hpdu => (h.told pdu (hs pdu hpdu)).nonempty, fun pdu hpdu => (h.answered pdu (hs pdu hpdu)).2⟩

/-- With a final ACK to read, the session returns. -/
theorem Inv.returns {pdus : List Bytes} {t : UInt32} (h : Inv env x s) (hx : x.WellFormed)
    (hp : Batches phase) (hu : s.session = some ⟨phase, []⟩) (hdown : s.down.pending = pdus.flatMap frame)
    (hs : ∀ pdu ∈ pdus, pdu ∈ s.receiver.node.sent) (hack : AckPdu.raw ⟨t, uint32Max⟩ ∈ pdus) :
    Follows env x s Returned := by
  obtain ⟨hne, hlen⟩ := h.readable hs
  obtain ⟨hist, s', hrun, -, hu', -⟩ := run_batch env hx hp hu (List.ne_nil_of_mem hack) hlen hdown
  have hany : pdus.any (acksChunk ackFinal) = true :=
    List.any_eq_true.mpr ⟨_, hack, acksChunk_final t⟩
  rw [onBatch_final hp hne hany] at hu'
  exact Reaches.after hrun (Reaches.here ⟨[], hu'⟩)

/-- All chunks are done and the Eof is on its way: it is answered by the final ACK. -/
theorem Inv.ends (h : Inv env x s) (hx : x.WellFormed) (hc : Crc.Composes env.crc32)
    (hcs : x.chunkSize ≤ 2 ^ 29) (hn : s.receiver.node = .up w) (hrun : s.receiver.main.running = true)
    (ha : w.rx.transferActive = true) (hm : w.rx.state.computeMissingChunks = [])
    (hu : s.session = some ⟨.final, []⟩) (hup : s.up.pending = [x.eofPdu env.crc32].flatMap frame)
    (hdown : s.down.pending = []) : Follows env x s Returned := by
  obtain ⟨w₁, out, hw₁, -, hsent₁, hf⟩ := (h.receiver.live hn).ends hx hc smooth_noFaults ha hm
  have hone : w.receiveAll env ([x.eofPdu env.crc32].map fun raw => (raw, noFaults)) = some w₁ := by
    rw [List.map_singleton, World.receiveAll_cons, hw₁]
    rfl
  have hlen : ∀ raw ∈ [x.eofPdu env.crc32], raw.length < 2 ^ 32 := by
    intro raw hraw
    rw [List.mem_singleton.mp hraw]
    exact (by decide : 9 < 2 ^ 32)
  obtain ⟨hist, s', out', hrun', hn', -, hu', -, hsent', hdown'⟩ :=
    run_receives (x := x) hn hrun hlen hup hone
  obtain rfl : out = out' := List.append_cancel_left (hsent₁.symm.trans hsent')
  rw [hdown, List.nil_append] at hdown'
  apply Reaches.after hrun'
  apply (h.after hx hc hcs hrun').returns hx (.inr rfl) (hu'.trans hu) hdown' ?_ hf
  intro pdu hpdu
  rw [hn']
  show pdu ∈ w₁.sent
  rw [hsent₁]
  exact List.mem_append_right _ hpdu

/-- The round of chunk `ci` is on its way, and nothing else; all chunks before it are done. -/
structure AtChunk (env : Env) (x : Transfer) (ci : Nat) (s : Stack) : Prop where
  inv : Inv env x s
  running : s.receiver.main.running = true
  session : s.session = some ⟨.chunk ci, []⟩
  up : s.up.pending = (x.sendChunk env.crc32 ci).1.flatMap frame
  down : s.down.pending = []
  receiver : ∃ w, s.receiver.node = .up w ∧ w.rx.transferActive = true ∧ Transfer.DoneBelow ci w.rx

/-- The round of a chunk arrives, and its answers. -/
theorem AtChunk.round {ci : Nat} (h : AtChunk env x ci s) (hx : x.WellFormed)
    (hc : Crc.Composes env.crc32) (hcs : x.chunkSize ≤ 2 ^ 29) (hci : ci < x.totalChunks) :
    ∃ hist s', Run env x Intact s hist s' ∧
      (Returned s' ∨ ci + 1 < x.totalChunks ∧ AtChunk env x (ci + 1) s') := by
  obtain ⟨w, hn, ha, hb⟩ := h.receiver
  have hreached : x.Reached ci [] w.rx := .active ha hb fun he => absurd he hci.ne
  obtain ⟨w₁, out, hw₁, hl₁, hsent₁, hr₁, hack⟩ := hreached.round hx hc (h.inv.receiver.live hn) hci
    (Transfer.isRound_plainRound smooth_noFaults hci)
  rw [Transfer.plainRound_deliveries hx env noFaults hci] at hw₁
  rw [List.nil_append] at hr₁ hack
  have hlen : ∀ raw ∈ (x.sendChunk env.crc32 ci).1, raw.length < 2 ^ 32 := fun raw hraw =>
    (Transfer.length_emits hx (Transfer.reacts_sendChunk ci raw hraw)).2
  obtain ⟨hist₁, s₁, out', hrun₁, hn₁, hmain₁, hu₁, hup₁, hsent, hdown₁⟩ :=
    run_receives (x := x) hn h.running hlen h.up hw₁
  obtain rfl : out = out' := List.append_cancel_left (hsent₁.symm.trans hsent)
  have hi₁ := h.inv.after hx hc hcs hrun₁
  -- the sender reads all answers
  have hread : ∀ pdu ∈ out, pdu ∈ s₁.receiver.node.sent := by
    intro pdu hpdu
    rw [hn₁]
    show pdu ∈ w₁.sent
    rw [hsent]
    exact List.mem_append_right _ hpdu
  obtain ⟨hne, hout⟩ := hi₁.readable hread
  have hsome : out ≠ [] := by
    rcases hack with hack | hack
    · exact List.ne_nil_of_mem hack
    · exact List.ne_nil_of_mem hack
  rw [h.down, List.nil_append] at hdown₁
  obtain ⟨hist₂, s₂, hrun₂, hr₂, hu₂, hup₂, hdown₂⟩ :=
    run_batch env hx (.inl ⟨ci, rfl⟩) (hu₁.trans h.session) hsome hout hdown₁
  refine ⟨_, s₂, hrun₁.trans hrun₂, ?_⟩
  have hi₂ := hi₁.after hx hc hcs hrun₂
  cases hfin : out.any (acksChunk ackFinal) with
  | true =>
    rw [onBatch_final (.inl ⟨ci, rfl⟩) hne hfin] at hu₂
    exact .inl ⟨[], hu₂⟩
  | false =>
    have hno : x.finalAck ∉ out := by
      intro hf
      rw [List.any_eq_true.mpr ⟨_, hf, acksChunk_final x.tid⟩] at hfin
      cases hfin
    have hthis : out.any (acksChunk ci) = true := by
      refine List.any_eq_true.mpr ⟨_, hack.resolve_right hno, ?_⟩
      unfold Transfer.chunkAck
      rw [acksChunk_raw, Transfer.toNat_chunk hx hci, beq_self_eq_true]
    rw [onBatch_acked hne hfin hthis] at hu₂ hup₂
    have hlt : ci + 1 < x.totalChunks := by
      by_contra hge
      rw [show ci + 1 = x.totalChunks by omega] at hr₁
      exact hno (hr₁.final hl₁)
    rw [hup₁, List.nil_append] at hup₂
    cases hr₁ with
    | ended _ hf => exact absurd hf hno
    | active ha' hb' _ =>
      refine .inr ⟨hlt, hi₂, by rw [hr₂]; exact hmain₁, ?_, hup₂, hdown₂, w₁, by rw [hr₂, hn₁], ha', hb'⟩
      rw [hu₂, hx.sendChunk_eq env.crc32 hlt]

/-- From chunk to chunk, to the end. -/
theorem AtChunk.returns {k ci : Nat} (h : AtChunk env x ci s) (hx : x.WellFormed)
    (hc : Crc.Composes env.crc32) (hcs : x.chunkSize ≤ 2 ^ 29) (hci : ci + (k + 1) = x.totalChunks) :
    Follows env x s Returned := by
  induction k generalizing s ci with
  | zero =>
    obtain ⟨hist, s', hrun, hret | ⟨hlt, -⟩⟩ := h.round hx hc hcs (by omega)
    · exact Reaches.after hrun (Reaches.here hret)
    · omega
  | succ k ih =>
    obtain ⟨hist, s', hrun, hret | ⟨-, hnext⟩⟩ := h.round hx hc hcs (by omega)
    · exact Reaches.after hrun (Reaches.here hret)
    · exact Reaches.after hrun (ih hnext (by omega))

/-- A session has begun, and nothing else is on its way. -/
structure AtQuery (env : Env) (x : Transfer) (s : Stack) : Prop where
  inv : Inv env x s
  running : s.receiver.main.running = true
  session : s.session = some ⟨.query 0, []⟩
  up : s.up.pending = (x.send env.crc32).1.flatMap frame
  down : s.down.pending = []

/-- The Metadata and the query arrive. -/
theorem AtQuery.received (h : AtQuery env x s) (hx : x.WellFormed) (hc : Crc.Composes env.crc32)
    (hcs : x.chunkSize ≤ 2 ^ 29) (hn : s.receiver.node = .up w)
    (hw : w.receiveAll env [(x.metadataRaw env.crc32, noFaults), (x.queryPdu, noFaults)] = some w') :
    ∃ hist s' out, Run env x Intact s hist s' ∧ Inv env x s' ∧ s'.receiver.node = .up w' ∧
      s'.receiver.main.running = true ∧ s'.session = some ⟨.query 0, []⟩ ∧ s'.up.pending = [] ∧
      w'.sent = w.sent ++ out ∧ s'.down.pending = out.flatMap frame := by
  have hsend := congrArg Prod.fst (System.send_eq hx env)
  have hlen : ∀ raw ∈ (x.send env.crc32).1, raw.length < 2 ^ 32 := fun raw hraw =>
    (Transfer.length_emits hx (Transfer.reacts_send raw hraw)).2
  have hall : w.receiveAll env ((x.send env.crc32).1.map fun raw => (raw, noFaults)) = some w' := by
    rw [hsend]
    exact hw
  obtain ⟨hist, s', out, hrun, hn', hmain, hu, hup, hsent, hdown⟩ :=
    run_receives (x := x) hn h.running hlen h.up hall
  rw [h.down, List.nil_append] at hdown
  exact ⟨hist, s', out, hrun, h.inv.after hx hc hcs hrun, hn', hmain, hu.trans h.session, hup, hsent, hdown⟩

/-- A transfer that is active, or was not the last to end, is resumed. -/
theorem AtQuery.resumes (h : AtQuery env x s) (hx : x.WellFormed) (hc : Crc.Composes env.crc32)
    (hcs : x.chunkSize ≤ 2 ^ 29) (hn : s.receiver.node = .up w)
    (hs : w.rx.transferActive = true ∨ w.rx.lastAckedId ≠ x.tid) : Follows env x s Returned := by
  obtain ⟨w₁, hw₁, hl₁, hsent₁, ha₁⟩ := (h.inv.receiver.live hn).opens hx hc smooth_noFaults hs
  obtain ⟨w₀, N, hw₀, -, hsent₀, hrx₀, hN⟩ := hl₁.queried hx hc smooth_noFaults ha₁
  rw [← hrx₀] at ha₁ hN
  have hboth : w.receiveAll env [(x.metadataRaw env.crc32, noFaults), (x.queryPdu, noFaults)] =
      some w₀ := by
    rw [World.receiveAll_cons, hw₁, Option.bind_some, World.receiveAll_cons, hw₀]
    rfl
  obtain ⟨hist, s₁, out, hrun, hi₁, hn₁, hmain₁, hu₁, hup₁, hsent, hdown₁⟩ :=
    h.received hx hc hcs hn hboth
  obtain rfl : [ResumeInfoPdu.raw ⟨x.tid, N⟩] = out := by
    rw [hsent₁] at hsent₀
    exact List.append_cancel_left (hsent₀.symm.trans hsent)
  rw [List.flatMap_singleton, ← List.append_nil (frame _)] at hdown₁
  have hinfo : (ResumeInfoPdu.raw ⟨x.tid, N⟩).length < 2 ^ 32 := (by decide : 9 < 2 ^ 32)
  obtain ⟨down, hempty, hanswer⟩ := run_answer hx hu₁ hinfo hdown₁
  rw [Transfer.onBatch, List.headD_cons, Transfer.onInfo_raw, if_neg (not_not_intro rfl)] at hanswer
  have hi₂ := hi₁.after hx hc hcs hanswer
  refine Reaches.after (hrun.trans hanswer) ?_
  rcases hN with ⟨rfl, hm⟩ | ⟨hne, hlt, hb⟩
  · -- nothing is missing
    rw [if_pos rfl] at hi₂ ⊢
    refine Inv.ends (s := { s₁ with down }.reacted ([x.eofPdu env.crc32], .final)) hi₂ hx hc hcs hn₁
      hmain₁ ha₁ hm rfl ?_ hempty
    show s₁.up.pending ++ _ = _
    rw [hup₁, List.nil_append]
  · rw [if_neg hne] at hi₂ ⊢
    have hat : AtChunk env x N.toNat ({ s₁ with down }.reacted (x.sendChunk env.crc32 N.toNat)) := by
      refine ⟨hi₂, hmain₁, ?_, ?_, hempty, w₀, hn₁, ha₁, hb⟩
      · unfold reacted
        rw [hx.sendChunk_eq env.crc32 hlt]
      · show s₁.up.pending ++ _ = _
        rw [hup₁, List.nil_append]
    have hleft : N.toNat + (x.totalChunks - N.toNat - 1 + 1) = x.totalChunks := by omega
    exact hat.returns hx hc hcs hleft

/-- A transfer that was the last to end is confirmed again; the sender gets there without an
answer to its query. -/
theorem AtQuery.confirmed (h : AtQuery env x s) (hx : x.WellFormed) (hc : Crc.Composes env.crc32)
    (hcs : x.chunkSize ≤ 2 ^ 29) (hn : s.receiver.node = .up w) (ha : w.rx.transferActive = false)
    (hl : w.rx.lastAckedId = x.tid) : Follows env x s Returned := by
  obtain ⟨name, -, hd⟩ := Transfer.decodePdu_metadataPdu (hx.metadataPdu env)
  obtain ⟨w₁, hw₁, hl₁, -, hsent₁⟩ := (h.inv.receiver.live hn).receives hx hc smooth_noFaults
    (.metadata (hx.metadataPdu env))
  have hrep : w.rx.repeatsAck (x.metadata env.crc32 name) = true := by
    unfold CfdpReceiver.repeatsAck
    rw [ha, hl]
    exact beq_self_eq_true _
  rw [Transfer.reply_of_decode hd] at hsent₁
  simp only [CfdpReceiver.replyPdu, CfdpReceiver.replyMetadata, hrep, if_true] at hsent₁
  obtain ⟨w₂, hw₂, -, -, hsent₂⟩ := hl₁.receives hx hc smooth_noFaults .query
  have hboth : w.receiveAll env [(x.metadataRaw env.crc32, noFaults), (x.queryPdu, noFaults)] =
      some w₂ := by
    rw [World.receiveAll_cons, hw₁, Option.bind_some, World.receiveAll_cons, hw₂]
    rfl
  obtain ⟨hist, s₁, out, hrun, hi₁, hn₁, -, hu₁, -, hsent, hdown₁⟩ := h.received hx hc hcs hn hboth
  rw [hsent₁, List.append_assoc] at hsent₂
  have hout := List.append_cancel_left (hsent.symm.trans hsent₂)
  obtain ⟨s₂, htimeouts, hu₂, hr₂, hdown₂⟩ := run_timeouts env hx hu₁
  refine Reaches.after (hrun.trans htimeouts) ?_
  refine (hi₁.after hx hc hcs htimeouts).returns hx (.inl ⟨0, rfl⟩) hu₂ (by rw [hdown₂, hdown₁])
    (t := w.rx.state.transactionId) (fun pdu hpdu => ?_) ?_
  · rw [hr₂, hn₁]
    show pdu ∈ w₂.sent
    rw [hsent]
    exact List.mem_append_right _ hpdu
  · rw [hout]
    exact List.mem_append_left _ (List.mem_singleton_self _)

theorem AtQuery.returns (h : AtQuery env x s) (hx : x.WellFormed) (hc : Crc.Composes env.crc32)
    (hcs : x.chunkSize ≤ 2 ^ 29) : Follows env x s Returned := by
  obtain ⟨w, hn⟩ := h.inv.receiver.up h.running
  by_cases hs : w.rx.transferActive = true ∨ w.rx.lastAckedId ≠ x.tid
  · exact h.resumes hx hc hcs hn hs
  · rw [not_or, not_not] at hs
    exact h.confirmed hx hc hcs hn (by simpa using hs.1) hs.2

/-- **The programs can always finish.** Whatever a tame line has lost and corrupted and wherever, but
inside a frame, sessions and processes have been interrupted, on a line that now carries every byte
some actions lead to a state in which the session has returned and the destination is the source
file. -/
theorem run_completes {n : Node} {up down : Nat → Nat} (hx : x.WellFormed)
    (hc : Crc.Composes env.crc32) (hcs : x.chunkSize ≤ 2 ^ 29) (hn : n.Fresh)
    (hd : x.Fits (n.disk.files (x.path env)))
    (h : Run env x (Tame env x) (first n up down) hist s) :
    ∃ hist' s', Run env x Intact s hist' s' ∧ Returned s' ∧
      s'.receiver.node.disk.files (x.path env) = some x.file := by
  have hi := ((inv_idle hn hd up down).run hx hc hcs h).1
  obtain ⟨hist₁, s₁, h₁, hrun₁⟩ := hi.starts
  have hi₁ := hi.after hx hc hcs h₁
  obtain ⟨hist₂, s₂, h₂, hrun₂, hu₂, hup₂, hdown₂⟩ := hi₁.empties hx hc hcs hrun₁
  have hat : AtQuery env x s₂ := ⟨hi₁.after hx hc hcs h₂, hrun₂, hu₂, hup₂, hdown₂⟩
  obtain ⟨hist₃, s₃, h₃, hret⟩ := hat.returns hx hc hcs
  obtain ⟨batch, hu₃⟩ := hret
  have hknows := (hat.inv.after hx hc hcs h₃).knows hx hu₃
  exact ⟨_, s₃, (h₁.trans h₂).trans h₃, ⟨batch, hu₃⟩, hknows⟩

/-- The query is corrupted, and the process is killed when it has read the Metadata. -/
def brokenSession : List StackAction :=
  let x := Transfer.small [0x61]
  [.process Receiver.begin,
    .send [(intact, x.metadataRaw sampleEnv.crc32), (invertType, x.queryPdu)],
    .receive noFaults none, .process .kill]

theorem tame_brokenSession : ∀ a ∈ brokenSession, Tame sampleEnv (Transfer.small [0x61]) a := by
  intro a ha
  simp only [brokenSession, List.mem_cons, List.not_mem_nil, or_false] at ha
  rcases ha with rfl | rfl | rfl | rfl
  · exact ⟨nofun, smooth_noFaults⟩
  · refine List.forall_mem_cons.mpr ⟨fun h => ?_, List.forall_mem_singleton.mpr (spares_query _ _)⟩
    cases h
  · exact smooth_noFaults
  · exact ⟨nofun, trivial⟩

/-- After the kill, the transfer can still be completed. -/
theorem run_completes_small : ∃ hist s, Run sampleEnv (Transfer.small [0x61])
    (Tame sampleEnv (Transfer.small [0x61])) (first unusedNode (fun _ => 1) (fun _ => 3)) hist s ∧
    s.receiver.main = .stopped ∧ ∃ hist' s', Run sampleEnv (Transfer.small [0x61]) Intact s hist' s' ∧
      Returned s' ∧ s'.receiver.node.disk.files ((Transfer.small [0x61]).path sampleEnv) = some [0x61] := by
  have hrun : (Machine.exec (step sampleEnv (Transfer.small [0x61]))
      (first unusedNode (fun _ => 1) (fun _ => 3)) brokenSession).any
        (fun r => decide (r.2.receiver.main = .stopped)) = true := by
    decide +kernel
  simp only [Option.any_eq_true, Prod.exists, decide_eq_true_eq] at hrun
  obtain ⟨hist, s, hr, hm⟩ := hrun
  have hok : Run sampleEnv (Transfer.small [0x61]) (Tame sampleEnv (Transfer.small [0x61]))
      (first unusedNode (fun _ => 1) (fun _ => 3)) hist s :=
    Machine.exec_run hr fun a ha _ _ _ => tame_brokenSession a ha
  exact ⟨hist, s, hok, hm, run_completes (Transfer.wellFormed_small (by simp) (by simp))
    Crc.composes_zlibCrc32 (by decide : 1 ≤ 2 ^ 29) unusedNode_fresh (fun g hg => by cases hg) hok⟩

end Stack

end Cfdp
