import Cfdp.Framing
import Cfdp.Knowledge
import Cfdp.ReceiverMain

/-!
# The two programs on a line of bytes

The sender and the receiver process with the two directions of the line between them, as
streams of bytes (`Stack`). The sender writes frames through `Transport.send`, which loses and
corrupts them, and collects what it reads into a batch until there is no more; the process of
`main` reads frame by frame and writes its answers. Reads are split as the operating system
likes. Frames are written whole and read whole: sessions can be interrupted and processes killed
between two frames, also inside a handler, but not while a frame is on its way into or out of
the line (`UartTransport::send` makes two calls of `write`). Half a frame would be taken for the
front of the next one.

`run_end_to_end` is what all of it achieves together: if what is corrupted is not the Metadata
nor the bytes that say which packet a packet is, the sender never raises, knows what the
receiver has stored, and returns only when the file is in place; the receiver returns 0 only
when it is in place and nothing is left to resume.
-/

namespace Cfdp

open Crash Prog Machine LittleEndian FileBytes ByteStream

/-! ## What fits into a frame -/

/-- An answer that is not a NAK has nine bytes. -/
def Brief (pdu : Bytes) : Prop := isNak pdu = true ∨ pdu.length = 9

namespace CfdpReceiver

variable {rx : CfdpReceiver} {env : Env} {o : Oracle} {verified : Bool} {raw pdu : Bytes} {ci : UInt32}

theorem brief_ack (rx : CfdpReceiver) (ci : UInt32) : Brief (rx.ack ci) := .inr rfl

theorem brief_leaveNak (h : pdu ∈ (rx.leaveNak ci).toList) : Brief pdu :=
  .inl (leaveNak_isNak (Option.mem_toList.mp h))

theorem brief_complete (h : pdu ∈ (rx.complete verified).2) : Brief pdu := by
  unfold complete at h
  cases hc : rx.completion with
  | silent => rw [hc] at h; cases h
  | nak nak =>
    rw [hc] at h
    rw [List.mem_singleton.mp h]
    exact .inl (completion_isNak hc)
  | verify =>
    rw [hc] at h
    cases verified with
    | true =>
      rw [List.mem_singleton.mp h]
      exact brief_ack rx uint32Max
    | false => cases h

theorem brief_replyFlush (h : pdu ∈ (rx.replyFlush verified ci).2) : Brief pdu := by
  unfold replyFlush at h
  split at h
  · rcases List.mem_cons.mp h with rfl | h
    · exact brief_ack rx ci
    · exact brief_complete h
  · rw [List.mem_singleton.mp h]
    exact brief_ack rx ci

theorem brief_reply (h : pdu ∈ (rx.reply env o verified raw).2) : Brief pdu := by
  unfold reply at h
  cases hd : decodePdu raw with
  | none => rw [hd] at h; cases h
  | some p =>
    rw [hd] at h
    cases p with
    | metadata m =>
      simp only [replyPdu, replyMetadata] at h
      split at h
      · rw [List.mem_singleton.mp h]
        exact brief_ack rx uint32Max
      · split at h <;> cases h
    | data d =>
      simp only [replyPdu, replyData] at h
      split at h
      · split at h
        · split at h
          · rw [List.mem_singleton.mp h]
            exact brief_ack rx d.chunkIndex
          · cases h
        · split at h
          · rcases List.mem_append.mp h with h | h
            · exact brief_leaveNak h
            · exact brief_replyFlush h
          · exact brief_leaveNak h
      · cases h
    | eof e =>
      simp only [replyPdu, replyEof] at h
      split at h
      · exact brief_complete h
      · cases h
    | resumeQuery q =>
      rw [List.mem_singleton.mp h]
      exact .inr rfl

theorem brief_replyBoot {loaded : Option (Bool × JournalState)}
    (h : pdu ∈ (rx.replyBoot verified loaded).2) : Brief pdu := by
  unfold replyBoot at h
  split at h
  · cases h
  · cases h
  · split at h
    · exact brief_complete h
    · cases h

end CfdpReceiver

theorem Node.brief_step {env : Env} {n n' : Node} {a : Action} {ms : List Moment}
    (hs : Node.step env n a = some (ms, n')) :
    ∃ out, n'.sent = n.sent ++ out ∧ ∀ pdu ∈ out, Brief pdu := by
  cases n with
  | down disk log =>
    cases a with
    | recv => cases hs
    | crash => cases hs
    | boot garbage o cut =>
      obtain ⟨v, out, hp, hsent⟩ := Node.sent_boot hs
      exact ⟨out, hsent, fun pdu hpdu => CfdpReceiver.brief_replyBoot (hp.subset hpdu)⟩
  | up w =>
    cases a with
    | boot => cases hs
    | crash =>
      cases hs
      exact ⟨[], (List.append_nil _).symm, fun pdu hpdu => by cases hpdu⟩
    | recv raw o cut =>
      obtain ⟨v, out, hp, hsent, -⟩ := Node.sent_recv hs
      exact ⟨out, hsent, fun pdu hpdu => CfdpReceiver.brief_reply (hp.subset hpdu)⟩

namespace Transfer

variable {env : Env} {x : Transfer} {raw pdu : Bytes}

theorem numPackets_le (hx : x.Sizes) (ci : Nat) : x.numPackets ci ≤ x.chunkSize := by
  have hps := hx.packetSize.1
  have hlen : x.chunkLen ci ≤ x.chunkSize := Nat.min_le_right _ _
  rw [numPackets, Nat.div_le_iff_le_mul hps]
  have := Nat.le_mul_of_pos_right x.chunkSize hps
  omega

/-- A proper NAK asks for ranges that do not touch, of packets of one chunk. -/
theorem length_nak {s : JournalState} {nak : NakPdu} {ci : UInt32} (hx : x.Sizes)
    (hm : x.Matches env s) (h : nak.Proper s ci) :
    (serializeNak nak).length ≤ 9 + 6 * (x.chunkSize + 1) := by
  have hbounds : ∀ r ∈ nak.missingPackets.map fun r => (r.firstPacket.toNat, r.lastPacket.toNat),
      0 ≤ r.1 ∧ r.1 ≤ r.2 ∧ r.2 < x.numPackets ci.toNat := by
    intro r hr
    obtain ⟨q, hq, rfl⟩ := List.mem_map.mp hr
    have hb := h.bounds q hq
    rw [hm.numPackets] at hb
    exact ⟨Nat.zero_le _, hb⟩
  have hcount := Runs.length_of_separated (Nat.zero_le _) (List.pairwise_map.mpr h.separated) hbounds
  have hle := numPackets_le hx ci.toNat
  rw [List.length_map] at hcount
  rw [serializeNak, List.length_cons, List.length_append, List.length_append, length_le32, length_le32,
    length_flatMap_toBytes]
  omega

theorem length_emits (hx : x.WellFormed) (h : x.Emits env.crc32 raw) :
    raw ≠ [] ∧ raw.length < 2 ^ 32 := by
  cases h with
  | metadata h =>
    obtain ⟨name, -, rfl⟩ := metadataPdu_eq h
    refine ⟨List.cons_ne_nil _ _, ?_⟩
    rw [List.length_cons, MetadataPdu.length_toBytes]
    decide
  | data ci pi h =>
    obtain ⟨hin, rfl⟩ := packet_eq h
    have hps := hx.packetSize
    have hmax : defaultPacketSize = 4096 := rfl
    have hle : x.packetLen ci pi ≤ x.packetSize := Nat.min_le_right _ _
    have hdata : (x.dataPdu ci pi).data.length = x.packetLen ci pi := hin.length_packetData
    refine ⟨List.cons_ne_nil _ _, ?_⟩
    rw [List.length_cons, List.length_append, zeros, List.length_replicate]
    simp only [DataPdu.toBytes, List.length_append, List.length_cons, length_le32, hdata]
    omega
  | eof => exact ⟨List.cons_ne_nil _ _, (by decide : 9 < 2 ^ 32)⟩
  | query => exact ⟨List.cons_ne_nil _ _, (by decide : 5 < 2 ^ 32)⟩

/-- Bytes that the sender's `Transport` makes of a PDU of the transfer. -/
def Arrives (env : Env) (x : Transfer) (raw : Bytes) : Prop :=
  ∃ d pdu, x.Emits env.crc32 pdu ∧ x.Spares env d pdu ∧ Transport.Writes d pdu raw

end Transfer

/-! ## Frames in a stream -/

/-- Whole frames are pending, of PDUs that satisfy `P`. -/
def Carries (P : Bytes → Prop) (s : ByteStream) : Prop :=
  ∃ pdus : List Bytes, s.pending = pdus.flatMap frame ∧ ∀ pdu ∈ pdus, pdu.length < 2 ^ 32 ∧ P pdu

section

variable {P Q : Bytes → Prop} {s s' : ByteStream}

theorem Carries.mono (h : Carries P s) (hpq : ∀ pdu, P pdu → Q pdu) : Carries Q s := by
  obtain ⟨pdus, hs, hall⟩ := h
  exact ⟨pdus, hs, fun pdu hpdu => ⟨(hall pdu hpdu).1, hpq pdu (hall pdu hpdu).2⟩⟩

theorem Carries.append {pdus : List Bytes} (h : Carries P s)
    (hs : s'.pending = s.pending ++ pdus.flatMap frame)
    (hp : ∀ pdu ∈ pdus, pdu.length < 2 ^ 32 ∧ P pdu) : Carries P s' := by
  obtain ⟨old, hold, hall⟩ := h
  refine ⟨old ++ pdus, by rw [hs, hold, List.flatMap_append], fun pdu hpdu => ?_⟩
  rcases List.mem_append.mp hpdu with hpdu | hpdu
  · exact hall pdu hpdu
  · exact hp pdu hpdu

/-- A reader of frames takes the first one. -/
theorem Carries.recv {α : Type} {recv : Reader α} {value : Bytes → α} (h : Carries P s)
    (hr : ∀ pdu, pdu.length < 2 ^ 32 → Reads recv (frame pdu) (value pdu)) (hne : s.pending ≠ []) :
    ∃ pdu s', recv s = (.ok (value pdu), s') ∧ P pdu ∧ Carries P s' := by
  obtain ⟨pdus, hs, hall⟩ := h
  cases pdus with
  | nil => exact absurd hs hne
  | cons pdu pdus =>
    obtain ⟨hlen, hp⟩ := hall pdu List.mem_cons_self
    rw [List.flatMap_cons] at hs
    obtain ⟨s', hs', hrest⟩ := hr pdu hlen s _ hs
    exact ⟨pdu, s', hs', hp, pdus, hrest, fun q hq => hall q (List.mem_cons_of_mem pdu hq)⟩

end

namespace Transport

/-- The sends of a reaction, until one raises; and whether none does. -/
def transmit : List (Dice × Bytes) → ByteStream → ByteStream × Bool
  | [], s => (s, true)
  | (d, pdu) :: sends, s =>
    match send d pdu s with
    | none => (s, false)
    | some s => transmit sends s

/-- A PDU that fits is lost, or a frame is written. -/
theorem send_fits {d : Dice} {pdu : Bytes} (hne : pdu ≠ []) (hlen : pdu.length < 2 ^ 32) :
    (∀ s, send d pdu s = some s) ∨ ∃ raw, raw.length < 2 ^ 32 ∧ Writes d pdu raw := by
  cases hl : d.lost with
  | true =>
    refine .inl fun s => ?_
    unfold send
    rw [hl, if_pos rfl]
  | false =>
    refine .inr ⟨if d.corrupted then pdu.modify (d.pos % pdu.length) (· ^^^ 0xFF) else pdu, ?_,
      hl, fun s => ?_⟩
    · split
      · rwa [List.length_modify]
      · exact hlen
    · unfold send
      rw [hl, if_neg Bool.false_ne_true, if_neg (fun h => hne h.2)]
      simp only []
      rw [packU32_natCast]
      · rfl
      · split
        · rwa [List.length_modify]
        · exact hlen

theorem transmit_fits {sends : List (Dice × Bytes)} {s : ByteStream}
    (h : ∀ q ∈ sends, q.2 ≠ [] ∧ q.2.length < 2 ^ 32) :
    (transmit sends s).2 = true ∧ ∃ raws : List Bytes,
      (transmit sends s).1.pending = s.pending ++ raws.flatMap frame ∧
        ∀ raw ∈ raws, raw.length < 2 ^ 32 ∧ ∃ q ∈ sends, Writes q.1 q.2 raw := by
  induction sends generalizing s with
  | nil => exact ⟨rfl, [], (List.append_nil _).symm, fun raw hraw => by cases hraw⟩
  | cons q sends ih =>
    obtain ⟨d, pdu⟩ := q
    obtain ⟨hne, hlen⟩ := h _ List.mem_cons_self
    have hrest := fun q hq => h q (List.mem_cons_of_mem (d, pdu) hq)
    have hmore {raw : Bytes} (hw : ∃ q ∈ sends, Writes q.1 q.2 raw) :
        ∃ q ∈ (d, pdu) :: sends, Writes q.1 q.2 raw := by
      obtain ⟨q, hq, hw⟩ := hw
      exact ⟨q, List.mem_cons_of_mem _ hq, hw⟩
    unfold transmit
    rcases @send_fits d pdu hne hlen with hlost | ⟨raw, hraw, hw⟩
    · rw [hlost]
      obtain ⟨hok, raws, hpending, hall⟩ := ih hrest (s := s)
      exact ⟨hok, raws, hpending, fun raw hraw => ⟨(hall raw hraw).1, hmore (hall raw hraw).2⟩⟩
    · rw [hw.2]
      obtain ⟨hok, raws, hpending, hall⟩ := ih hrest (s := s.write (frame raw))
      refine ⟨hok, raw :: raws, ?_, fun raw' hraw' => ?_⟩
      · rw [hpending, List.flatMap_cons, ← List.append_assoc]
        rfl
      · rcases List.mem_cons.mp hraw' with rfl | hraw'
        · exact ⟨hraw, (d, pdu), List.mem_cons_self, hw⟩
        · exact ⟨(hall raw' hraw').1, hmore (hall raw' hraw').2⟩

end Transport

/-! ## The stack -/

/-- A session of the sender: where it waits, and what it has read of a batch. -/
structure Session where
  phase : Phase
  batch : List Bytes

structure Stack where
  receiver : Receiver
  /-- the session that runs, or ran last -/
  session : Option Session
  /-- from the sender to the receiver -/
  up : ByteStream
  /-- from the receiver to the sender -/
  down : ByteStream

/-- What happens. `sends` are the PDUs of the sender's reaction, with what the random numbers of
each `Transport.send` decide. No action ends inside a frame: a session that is interrupted has
written whole frames (the rest of its reaction counts as lost), and so has a process that is
killed. -/
inductive StackAction where
  /-- `send` is called: a session begins, whatever became of the last one -/
  | send (sends : List (Transport.Dice × Bytes))
  /-- `recv(TIMEOUT_S)` returns None -/
  | timeout (sends : List (Transport.Dice × Bytes))
  /-- `recv` returns a PDU in `_query_resume` -/
  | answer (sends : List (Transport.Dice × Bytes))
  /-- `recv` returns a PDU of a batch -/
  | read
  /-- `recv(0)` returns None -/
  | drained (sends : List (Transport.Dice × Bytes))
  /-- `uart.recv` returns, or throws -/
  | receive (o : Oracle) (cut : Option Nat)
  /-- anything else that happens to the process -/
  | process (a : MainAction)

namespace Stack

def raise (s : Stack) : Stack := { s with session := some ⟨.raised, []⟩ }

/-- The sender reacts, unless a `send` raises. -/
def react (s : Stack) (r : Reaction) (sends : List (Transport.Dice × Bytes)) :
    Option (List Moment × Stack) :=
  if sends.map Prod.snd = r.1 then
    match Transport.transmit sends s.up with
    | (up, true) => some ([], { s with up, session := some ⟨r.2, []⟩ })
    | (up, false) => some ([], { s with up }.raise)
  else none

/-- The sender reads a frame, if any bytes are pending. -/
def recv (s : Stack) (next : Stack → Bytes → Option (List Moment × Stack)) :
    Option (List Moment × Stack) :=
  if s.down.pending = [] then none
  else
    match Transport.recv true s.down with
    | (.ok (some pdu), down) => next { s with down } pdu
    | (_, down) => some ([], { s with down }.raise)

/-- A step of the process. It writes its answers. -/
def main (env : Env) (s : Stack) (a : MainAction) : Option (List Moment × Stack) :=
  (s.receiver.step env a).map fun q => (q.1, { s with
    receiver := q.2
    down := UartTransport.sendAll (q.2.node.sent.drop s.receiver.node.sent.length) s.down })

/-- A step of the two programs. What it writes are whole frames, what it reads is one: the two calls
of `write` in `UartTransport::send` are one step, and so are the reads of a frame. -/
def step (env : Env) (x : Transfer) (s : Stack) : StackAction → Option (List Moment × Stack)
  | .send sends => s.react (x.send env.crc32) sends
  | .timeout sends =>
    match s.session with
    | some ⟨phase, []⟩ => s.react (x.onTimeout env.crc32 phase) sends
    | _ => none
  | .answer sends =>
    match s.session with
    | some ⟨.query attempt, _⟩ =>
      s.recv fun s pdu => s.react (x.onBatch env.crc32 (.query attempt) [pdu]) sends
    | _ => none
  | .read =>
    match s.session with
    | some ⟨.chunk ci, batch⟩ =>
      s.recv fun s pdu => some ([], { s with session := some ⟨.chunk ci, batch ++ [pdu]⟩ })
    | some ⟨.final, batch⟩ =>
      s.recv fun s pdu => some ([], { s with session := some ⟨.final, batch ++ [pdu]⟩ })
    | _ => none
  | .drained sends =>
    match s.session with
    | some ⟨phase, batch⟩ =>
      if phase.Reads batch then s.react (x.onBatch env.crc32 phase batch) sends else none
    | none => none
  | .receive o cut =>
    if s.up.pending = [] then none
    else
      match UartTransport.recv s.up with
      | (.ok raw, up) => { s with up }.main env (.pdu raw o cut)
      | (.error _, up) => { s with up }.main env .readError
  | .process (.pdu _ _ _) => none
  | .process a => s.main env a

abbrev Run (env : Env) (x : Transfer) (ok : StackAction → Prop) (s : Stack) (hist : List Moment)
    (s' : Stack) : Prop :=
  Machine.Run (step env x) (fun _ a => ok a) s hist s'

/-- Before the first session and the first process, with an empty line. -/
def first (n : Node) (up down : Nat → Nat) : Stack := ⟨⟨n, .stopped⟩, none, ⟨[], up⟩, ⟨[], down⟩⟩

/-- The line stays up and spares the Metadata and the bytes that say which packet a packet is, and no
call of the receiver fails. -/
def Tame (env : Env) (x : Transfer) : StackAction → Prop
  | .send sends | .timeout sends | .answer sends | .drained sends =>
    ∀ q ∈ sends, x.Spares env q.1 q.2
  | .read => True
  | .receive o _ => o.Smooth
  | .process a => a ≠ .readError ∧ a.node.Within (fun _ => True) Oracle.Smooth

variable {env : Env} {x : Transfer} {s s' : Stack} {a : StackAction} {ms hist : List Moment}

/-! ## What holds between two actions -/

/-- What holds of a session, if the receiver has transmitted `sent`. -/
structure SessionOk (x : Transfer) (sent : List Bytes) (t : Session) : Prop where
  heard : x.Heard sent t.phase
  waits : x.Waits t.phase
  running : t.phase ≠ .raised
  batch : ∀ pdu ∈ t.batch, pdu ∈ sent

theorem SessionOk.mono {t : Session} {sent sent' : List Bytes} (h : SessionOk x sent t)
    (hs : ∀ pdu ∈ sent, pdu ∈ sent') : SessionOk x sent' t :=
  ⟨h.heard.mono hs, h.waits, h.running, fun pdu hpdu => hs pdu (h.batch pdu hpdu)⟩

/-- The sender can read `pdu` and answer it. -/
def Answered (x : Transfer) (pdu : Bytes) : Prop := x.Answerable pdu ∧ pdu.length < 2 ^ 32

structure Inv (env : Env) (x : Transfer) (s : Stack) : Prop where
  receiver : Receiver.Inv env x s.receiver
  alive : s.receiver.main ≠ .exited 1
  told : x.Told env s.receiver.node.disk s.receiver.node.sent
  answered : ∀ pdu ∈ s.receiver.node.sent, Answered x pdu
  up : Carries (x.Arrives env) s.up
  down : Carries (· ∈ s.receiver.node.sent) s.down
  session : ∀ t, s.session = some t → SessionOk x s.receiver.node.sent t

/-- PDUs of the transfer fit: no `send` raises. -/
theorem react_eq {r : Reaction} {sends : List (Transport.Dice × Bytes)} (hx : x.WellFormed)
    (hr : x.Reacts env.crc32 r) (hs : s.react r sends = some (ms, s')) :
    sends.map Prod.snd = r.1 ∧ ms = [] ∧ ∃ (up : ByteStream) (raws : List Bytes),
      s' = { s with up, session := some ⟨r.2, []⟩ } ∧ up.pending = s.up.pending ++ raws.flatMap frame ∧
      ∀ raw ∈ raws, raw.length < 2 ^ 32 ∧ ∃ q ∈ sends, x.Emits env.crc32 q.2 ∧
        Transport.Writes q.1 q.2 raw := by
  unfold Stack.react at hs
  split at hs
  next hsends =>
    have hemits : ∀ q ∈ sends, x.Emits env.crc32 q.2 := by
      intro q hq
      refine hr q.2 ?_
      rw [← hsends]
      exact List.mem_map_of_mem hq
    obtain ⟨hok, raws, hpending, hraws⟩ := Transport.transmit_fits (s := s.up) fun q hq =>
      Transfer.length_emits hx (hemits q hq)
    generalize ht : Transport.transmit sends s.up = t at hs hok hpending
    obtain ⟨up, ok⟩ := t
    obtain rfl : ok = true := hok
    cases hs
    refine ⟨hsends, rfl, up, raws, rfl, hpending, fun raw hraw => ?_⟩
    obtain ⟨hlen, q, hq, hw⟩ := hraws raw hraw
    exact ⟨hlen, q, hq, hemits q hq, hw⟩
  · cases hs

/-- A reaction of the sender. -/
theorem Inv.react {r : Reaction} {sends : List (Transport.Dice × Bytes)} (h : Inv env x s)
    (hx : x.WellFormed) (hr : x.Reacts env.crc32 r) (hheard : x.Heard s.receiver.node.sent r.2)
    (hwaits : x.Waits r.2) (hrun : r.2 ≠ .raised) (hspares : ∀ q ∈ sends, x.Spares env q.1 q.2)
    (hs : s.react r sends = some (ms, s')) : Inv env x s' := by
  obtain ⟨-, -, up, raws, rfl, hpending, hraws⟩ := react_eq hx hr hs
  refine ⟨h.receiver, h.alive, h.told, h.answered, h.up.append hpending fun raw hraw => ?_, h.down,
    fun t ht => ?_⟩
  · obtain ⟨hlen, q, hq, hemits, hw⟩ := hraws raw hraw
    exact ⟨hlen, q.1, q.2, hemits, hspares q hq, hw⟩
  · cases ht
    exact ⟨hheard, hwaits, hrun, fun pdu hpdu => by cases hpdu⟩

/-- The sender reads. -/
theorem Inv.recv {next : Stack → Bytes → Option (List Moment × Stack)} (h : Inv env x s)
    (hs : s.recv next = some (ms, s')) :
    ∃ pdu down, pdu ∈ s.receiver.node.sent ∧ Carries (· ∈ s.receiver.node.sent) down ∧
      next { s with down } pdu = some (ms, s') := by
  unfold Stack.recv at hs
  split at hs
  · cases hs
  next hne =>
    obtain ⟨pdu, down, hrecv, hpdu, hdown⟩ :=
      h.down.recv (fun pdu hlen => Transport.reads_recv hlen) hne
    rw [hrecv] at hs
    exact ⟨pdu, down, hpdu, hdown, hs⟩

/-- A step of the process. -/
theorem Inv.main {a : MainAction} (h : Inv env x s) (hx : x.WellFormed) (hc : Crc.Composes env.crc32)
    (hcs : x.chunkSize ≤ 2 ^ 29) (ha : Receiver.Noisy env x s.receiver a) (hne : a ≠ .readError)
    (hs : s.main env a = some (ms, s')) : Inv env x s' := by
  obtain ⟨⟨ms', r'⟩, hr, hq⟩ := Option.map_eq_some_iff.mp hs
  cases hq
  have hrecv := h.receiver.step hx hc ha hr
  have halive := h.receiver.ne_one hx hc ha hr hne
  obtain ⟨-, hnode, -⟩ := Receiver.step_eq_some.mp hr
  have hnoisy : x.Noisy env s.receiver.node a.node := ha
  have hfaithful : x.Faithful env s.receiver.node := ⟨h.receiver.held, h.told⟩
  obtain ⟨⟨-, htold⟩, -⟩ := hfaithful.step hx hnoisy hnode
  obtain ⟨out, hsent, hnak⟩ := h.receiver.held.naks h.receiver.ok hx.toSizes hnode
  obtain ⟨out', hsent', hbrief⟩ := Node.brief_step hnode
  obtain rfl : out = out' := List.append_cancel_left (hsent.symm.trans hsent')
  have hnew : ∀ pdu ∈ out, Answered x pdu := by
    intro pdu hpdu
    by_cases hn : isNak pdu = true
    · obtain ⟨nak, s, ci, rfl, hm, hp⟩ := hnak pdu hpdu hn
      have hle := Transfer.length_nak hx.toSizes hm hp
      exact ⟨Transfer.answerable_nak hx.toSizes hm hp, by omega⟩
    · have hlen := (hbrief pdu hpdu).resolve_left hn
      exact ⟨fun h => absurd h hn, by omega⟩
  have hold : ∀ pdu ∈ s.receiver.node.sent, pdu ∈ r'.node.sent := by
    intro pdu hpdu
    rw [hsent]
    exact List.mem_append_left _ hpdu
  refine ⟨hrecv, halive, htold, fun pdu hpdu => ?_, h.up, ?_, fun t ht => (h.session t ht).mono hold⟩
  · replace hpdu : pdu ∈ r'.node.sent := hpdu
    rw [hsent] at hpdu
    exact (List.mem_append.mp hpdu).elim (h.answered pdu) (hnew pdu)
  · have hpending : (UartTransport.sendAll (r'.node.sent.drop s.receiver.node.sent.length)
        s.down).pending = s.down.pending ++ out.flatMap frame := by
      rw [hsent, List.drop_left, UartTransport.sendAll_eq]
      rfl
    refine (h.down.mono hold).append hpending fun pdu hpdu => ⟨(hnew pdu hpdu).2, ?_⟩
    show pdu ∈ r'.node.sent
    rw [hsent]
    exact List.mem_append_right _ hpdu

/-- What arrives at the process is tolerated. -/
theorem noisy_arrives {raw : Bytes} {o : Oracle} {cut : Option Nat} (hx : x.WellFormed)
    (r : Receiver) (h : x.Arrives env raw) (ho : o.Smooth) :
    Receiver.Noisy env x r (.pdu raw o cut) := by
  obtain ⟨d, pdu, hemits, hspares, hw⟩ := h
  unfold Receiver.Noisy
  cases r.node with
  | up w => exact ⟨Transfer.tolerates_written hx w.rx hemits hspares hw, ho⟩
  | down disk log => exact ⟨trivial, ho⟩

theorem noisy_process {a : MainAction} (r : Receiver) (h : Tame env x (.process a))
    (hp : ∀ raw o cut, a ≠ .pdu raw o cut) : Receiver.Noisy env x r a := by
  unfold Receiver.Noisy
  cases a with
  | pdu raw o cut => exact absurd rfl (hp raw o cut)
  | start garbage o cut => cases r.node <;> exact h.2
  | readError => cases r.node <;> trivial
  | quiet => cases r.node <;> trivial
  | kill => cases r.node <;> trivial

theorem Inv.step (h : Inv env x s) (hx : x.WellFormed) (hc : Crc.Composes env.crc32)
    (hcs : x.chunkSize ≤ 2 ^ 29) (ha : Tame env x a) (hs : s.step env x a = some (ms, s')) :
    Inv env x s' := by
  have htot := System.totalChunks_le hx
  cases a with
  | send sends =>
    have hphase := congrArg Prod.snd (System.send_eq hx env)
    refine h.react hx Transfer.reacts_send ?_ ?_ ?_ ha hs
    · rw [hphase]
      trivial
    · rw [hphase]
      trivial
    · rw [hphase]
      exact Phase.noConfusion
  | timeout sends =>
    simp only [Stack.step] at hs
    split at hs
    · next phase ht =>
      obtain ⟨hheard, hwaits, hrun, -⟩ := h.session _ ht
      exact h.react hx (Transfer.reacts_onTimeout phase) (Transfer.heard_onTimeout hheard)
        (Transfer.waits_onTimeout hwaits) (Transfer.onTimeout_ne_raised hx env hrun) ha hs
    · cases hs
  | answer sends =>
    simp only [Stack.step] at hs
    split at hs
    · next attempt batch ht =>
      obtain ⟨hheard, hwaits, hrun, -⟩ := h.session _ ht
      obtain ⟨pdu, down, hpdu, hdown, hs⟩ := h.recv hs
      have hmem : ∀ p ∈ [pdu], p ∈ s.receiver.node.sent := by
        intro p hp
        rw [List.mem_singleton.mp hp]
        exact hpdu
      have h' : Inv env x { s with down } :=
        ⟨h.receiver, h.alive, h.told, h.answered, h.up, hdown, h.session⟩
      refine h'.react hx (Transfer.reacts_onBatch _ _) (Transfer.heard_onBatch htot hheard ?_ hmem)
        (Transfer.waits_onBatch hwaits) (Transfer.onBatch_ne_raised hx env hrun ?_ ?_) ha hs
      · exact List.length_singleton
      · exact fun p hp => (h.told p (hmem p hp)).nonempty
      · exact fun p hp => (h.answered p (hmem p hp)).1
    · cases hs
  | read =>
    have hread {phase : Phase} {batch : List Bytes} (ht : s.session = some ⟨phase, batch⟩)
        (hs : (s.recv fun s pdu => some ([], { s with session := some ⟨phase, batch ++ [pdu]⟩ })) =
          some (ms, s')) : Inv env x s' := by
      obtain ⟨hheard, hwaits, hrun, hbatch⟩ := h.session _ ht
      obtain ⟨pdu, down, hpdu, hdown, hs⟩ := h.recv hs
      cases hs
      refine ⟨h.receiver, h.alive, h.told, h.answered, h.up, hdown, fun t ht => ?_⟩
      cases ht
      refine ⟨hheard, hwaits, hrun, fun p hp => ?_⟩
      rcases List.mem_append.mp hp with hp | hp
      · exact hbatch p hp
      · rw [List.mem_singleton.mp hp]
        exact hpdu
    simp only [Stack.step] at hs
    split at hs
    · next ht => exact hread ht hs
    · next ht => exact hread ht hs
    · cases hs
  | drained sends =>
    simp only [Stack.step] at hs
    split at hs
    · next phase batch ht =>
      obtain ⟨hheard, hwaits, hrun, hbatch⟩ := h.session _ ht
      split at hs
      · next hreads =>
        refine h.react hx (Transfer.reacts_onBatch _ _) (Transfer.heard_onBatch htot hheard hreads hbatch)
          (Transfer.waits_onBatch hwaits) (Transfer.onBatch_ne_raised hx env hrun ?_ ?_) ha hs
        · exact fun p hp => (h.told p (hbatch p hp)).nonempty
        · exact fun p hp => (h.answered p (hbatch p hp)).1
      · cases hs
    · cases hs
  | receive o cut =>
    simp only [Stack.step] at hs
    split at hs
    · cases hs
    next hne =>
      obtain ⟨raw, up, hrecv, harrives, hup⟩ :=
        h.up.recv (fun pdu hlen => UartTransport.reads_recv hlen) hne
      rw [hrecv] at hs
      have h' : Inv env x { s with up } :=
        ⟨h.receiver, h.alive, h.told, h.answered, hup, h.down, h.session⟩
      exact h'.main hx hc hcs (noisy_arrives hx s.receiver harrives ha) nofun hs
  | process a =>
    cases a with
    | pdu raw o cut => cases hs
    | start garbage o cut => exact h.main hx hc hcs (noisy_process s.receiver ha nofun) ha.1 hs
    | readError => exact absurd rfl ha.1
    | quiet => exact h.main hx hc hcs (noisy_process s.receiver ha nofun) ha.1 hs
    | kill => exact h.main hx hc hcs (noisy_process s.receiver ha nofun) ha.1 hs

/-- What the process does on its streams, it does in a noisy environment. -/
theorem Inv.process (h : Inv env x s) (hx : x.WellFormed) (ha : Tame env x a)
    (hs : s.step env x a = some (ms, s')) :
    Receiver.Run env (Receiver.Noisy env x) s.receiver ms s'.receiver := by
  have hreact {s : Stack} {r : Reaction} {sends : List (Transport.Dice × Bytes)}
      (hr : x.Reacts env.crc32 r) (hs : s.react r sends = some (ms, s')) :
      Receiver.Run env (Receiver.Noisy env x) s.receiver ms s'.receiver := by
    obtain ⟨-, rfl, up, raws, rfl, -⟩ := react_eq hx hr hs
    exact .start
  have hmain {s : Stack} {a : MainAction} (ha : Receiver.Noisy env x s.receiver a)
      (hs : s.main env a = some (ms, s')) :
      Receiver.Run env (Receiver.Noisy env x) s.receiver ms s'.receiver := by
    obtain ⟨⟨ms', r'⟩, hr, hq⟩ := Option.map_eq_some_iff.mp hs
    cases hq
    exact Machine.Run.start.step ha hr
  cases a with
  | send sends => exact hreact Transfer.reacts_send hs
  | timeout sends =>
    simp only [Stack.step] at hs
    split at hs
    · exact hreact (Transfer.reacts_onTimeout _) hs
    · cases hs
  | answer sends =>
    simp only [Stack.step] at hs
    split at hs
    · obtain ⟨pdu, down, -, -, hs⟩ := h.recv hs
      exact hreact (s := { s with down }) (Transfer.reacts_onBatch _ _) hs
    · cases hs
  | read =>
    simp only [Stack.step] at hs
    split at hs
    · obtain ⟨pdu, down, -, -, hs⟩ := h.recv hs
      cases hs
      exact .start
    · obtain ⟨pdu, down, -, -, hs⟩ := h.recv hs
      cases hs
      exact .start
    · cases hs
  | drained sends =>
    simp only [Stack.step] at hs
    split at hs
    · split at hs
      · exact hreact (Transfer.reacts_onBatch _ _) hs
      · cases hs
    · cases hs
  | receive o cut =>
    simp only [Stack.step] at hs
    split at hs
    · cases hs
    next hne =>
      obtain ⟨raw, up, hrecv, harrives, -⟩ :=
        h.up.recv (fun pdu hlen => UartTransport.reads_recv hlen) hne
      rw [hrecv] at hs
      exact hmain (s := { s with up }) (noisy_arrives hx s.receiver harrives ha) hs
  | process a =>
    cases a with
    | pdu raw o cut => cases hs
    | start garbage o cut => exact hmain (noisy_process s.receiver ha nofun) hs
    | readError => exact absurd rfl ha.1
    | quiet => exact hmain (noisy_process s.receiver ha nofun) hs
    | kill => exact hmain (noisy_process s.receiver ha nofun) hs

theorem inv_idle {n : Node} (hn : n.Fresh) (hd : x.Fits (n.disk.files (x.path env)))
    (up down : Nat → Nat) : Inv env x (first n up down) := by
  have hsent : n.sent = [] := by
    cases n with
    | up w => exact hn.elim
    | down disk log =>
      obtain ⟨-, rfl⟩ := hn
      rfl
  refine ⟨Receiver.inv_stopped hn hd, nofun, (Transfer.faithful_fresh hn hd).2, ?_, ⟨[], rfl, nofun⟩,
    ⟨[], rfl, nofun⟩, nofun⟩
  show ∀ pdu ∈ n.sent, Answered x pdu
  rw [hsent]
  exact nofun

/-- A run of the stack keeps the invariant and is, for the receiver, a run of its process. -/
theorem Inv.run (h : Inv env x s) (hx : x.WellFormed) (hc : Crc.Composes env.crc32)
    (hcs : x.chunkSize ≤ 2 ^ 29) (hr : Run env x (Tame env x) s hist s') :
    Inv env x s' ∧ Receiver.Run env (Receiver.Noisy env x) s.receiver hist s'.receiver := by
  obtain ⟨r, hr, hi, rfl⟩ := hr.simulate (R := fun s r => Inv env x s ∧ s.receiver = r) ⟨h, rfl⟩
    fun s r a ms s' hi ha hs => by
      obtain ⟨hi, rfl⟩ := hi
      exact ⟨_, hi.process hx ha hs, hi.step hx hc hcs ha hs, rfl⟩
  exact ⟨hi, hr⟩

theorem Inv.knows {t : Session} (h : Inv env x s) (hx : x.WellFormed) (ht : s.session = some t) :
    x.Knows (s.receiver.node.disk.files (x.path env)) t.phase := by
  have hok := h.session t ht
  refine hok.heard.knows hok.waits hx h.told ?_
  have hheld := h.receiver.held
  cases hn : s.receiver.node with
  | up w => rw [hn] at hheld; exact hheld.fits
  | down disk log => rw [hn] at hheld; exact hheld.fits

/-- **From end to end.** The sender and the receiver process on a line of bytes that stays up, is split
over the reads in any way, loses PDUs and corrupts what it may, with sessions interrupted and
processes killed at any time but inside a frame:
* at every moment what is marked done is in the destination file, which after a final ACK is the
  source file;
* the sender never raises, and what it goes by holds of the destination file, which is the source
  file when it returns;
* the process ends only when it is killed, or with status 0 when the file is in place and
  nothing is left to resume. -/
theorem run_end_to_end {n : Node} {up down : Nat → Nat} (hx : x.WellFormed)
    (hc : Crc.Composes env.crc32) (hcs : x.chunkSize ≤ 2 ^ 29) (hn : n.Fresh)
    (hd : x.Fits (n.disk.files (x.path env)))
    (h : Run env x (Tame env x) (first n up down) hist s) :
    (∀ w, .passed w ∈ hist → x.Safe env w.disk w.rx.state w.log) ∧
    (∀ t, s.session = some t → t.phase ≠ .raised ∧
      x.Knows (s.receiver.node.disk.files (x.path env)) t.phase) ∧
    ∀ status, s.receiver.main = .exited status →
      status = 0 ∧ Receiver.Complete env x s.receiver.node.disk := by
  obtain ⟨hi, hr⟩ := (inv_idle hn hd up down).run hx hc hcs h
  have hnode : Node.Run env (x.Noisy env) n hist s.receiver.node := hr.node fun _ _ ha => ha
  refine ⟨fun w hw => ((Transfer.Run.noisyInv hx hn hd hnode).2 w hw).safe,
    fun t ht => ⟨(hi.session t ht).running, hi.knows hx ht⟩, fun status hm => ?_⟩
  have hp := hi.receiver.place
  have halive := hi.alive
  rw [hm] at hp halive
  exact hp.2.resolve_left fun h1 => halive (by rw [h1])

/-! ## A file of one byte -/

def intact : Transport.Dice := ⟨false, false, 0⟩

/-- The type of the PDU is inverted. -/
def invertType : Transport.Dice := ⟨false, true, 0⟩

/-- Whatever hits the query is spared. -/
theorem spares_query (x : Transfer) (d : Transport.Dice) : x.Spares sampleEnv d x.queryPdu := by
  refine fun _ => ⟨fun h => ?_, fun ci pi h => ?_⟩
  · obtain ⟨name, -, he⟩ := Transfer.metadataPdu_eq h
    cases he
  · obtain ⟨-, he⟩ := Transfer.packet_eq h
    cases he

/-- The first query is corrupted; the sender reads both ACKs in one batch. -/
def smallSession : List StackAction :=
  let x := Transfer.small [0x61]
  [.process Receiver.begin,
    .send [(intact, x.metadataRaw sampleEnv.crc32), (invertType, x.queryPdu)],
    .receive noFaults none, .receive noFaults none,
    .timeout [(intact, x.queryPdu)], .receive noFaults none,
    .answer [(intact, x.packetRaw 0 0), (intact, x.eofPdu sampleEnv.crc32)],
    .receive noFaults none, .receive noFaults none,
    .read, .read, .drained [], .process .quiet]

theorem tame_smallSession : ∀ a ∈ smallSession, Tame sampleEnv (Transfer.small [0x61]) a := by
  have hintact (pdu : Bytes) : (Transfer.small [0x61]).Spares sampleEnv intact pdu :=
    fun h => by cases h
  intro a ha
  simp only [smallSession, List.mem_cons, List.not_mem_nil, or_false] at ha
  rcases ha with rfl | rfl | rfl | rfl | rfl | rfl | rfl | rfl | rfl | rfl | rfl | rfl | rfl
  · exact ⟨nofun, smooth_noFaults⟩
  · exact List.forall_mem_cons.mpr ⟨hintact _, List.forall_mem_singleton.mpr (spares_query _ _)⟩
  · exact smooth_noFaults
  · exact smooth_noFaults
  · exact List.forall_mem_singleton.mpr (hintact _)
  · exact smooth_noFaults
  · exact List.forall_mem_cons.mpr ⟨hintact _, List.forall_mem_singleton.mpr (hintact _)⟩
  · exact smooth_noFaults
  · exact smooth_noFaults
  · trivial
  · trivial
  · exact nofun
  · exact ⟨nofun, trivial⟩

theorem run_smallSession : ∃ hist s, Run sampleEnv (Transfer.small [0x61])
    (Tame sampleEnv (Transfer.small [0x61])) (first unusedNode (fun _ => 1) (fun _ => 3)) hist s ∧
    (∃ batch, s.session = some ⟨.returned, batch⟩) ∧ s.receiver.main = .exited 0 := by
  have hrun : (Machine.exec (step sampleEnv (Transfer.small [0x61]))
      (first unusedNode (fun _ => 1) (fun _ => 3)) smallSession).any (fun r =>
        decide (r.2.receiver.main = .exited 0) &&
          r.2.session.any fun t => decide (t.phase = .returned)) = true := by
    decide +kernel
  simp only [Option.any_eq_true, Prod.exists, Bool.and_eq_true, decide_eq_true_eq] at hrun
  obtain ⟨hist, s, hr, hm, ⟨phase, batch⟩, ht, rfl⟩ := hrun
  have hok : Run sampleEnv (Transfer.small [0x61]) (Tame sampleEnv (Transfer.small [0x61]))
      (first unusedNode (fun _ => 1) (fun _ => 3)) hist s :=
    Machine.exec_run hr fun a ha _ _ _ => tame_smallSession a ha
  exact ⟨hist, s, hok, ⟨batch, ht⟩, hm⟩

/-- The sender returns and the process exits; the bytes arrive one by one, or three at a time. -/
theorem run_end_to_end_small : ∃ hist s, Run sampleEnv (Transfer.small [0x61])
    (Tame sampleEnv (Transfer.small [0x61])) (first unusedNode (fun _ => 1) (fun _ => 3)) hist s ∧
    (∃ batch, s.session = some ⟨.returned, batch⟩) ∧ s.receiver.main = .exited 0 ∧
    s.receiver.node.disk.files ((Transfer.small [0x61]).path sampleEnv) = some [0x61] := by
  obtain ⟨hist, s, hok, ⟨batch, ht⟩, hm⟩ := run_smallSession
  obtain ⟨-, hsession, -⟩ := run_end_to_end (Transfer.wellFormed_small (by simp) (by simp))
    Crc.composes_zlibCrc32 (by decide : 1 ≤ 2 ^ 29) unusedNode_fresh (fun g hg => by cases hg) hok
  exact ⟨hist, s, hok, ⟨batch, ht⟩, hm, (hsession _ ht).2⟩

end Stack

end Cfdp
