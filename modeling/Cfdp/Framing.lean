import Cfdp.Lib.ByteStream
import Cfdp.Lib.FileBytes
import Cfdp.Sender

/-!
# Frames on the line

A PDU is sent as its length, four bytes little endian, and its bytes: by the receiver in
two writes (`UartTransport`), by the sender in one, unless the PDU is lost or corrupted
(`Transport`). Both sides read with a loop that asks for what is missing until it is there.
However the stream is split over the reads, what was sent is received (`frames_roundtrip`).
-/

namespace Cfdp

open LittleEndian FileBytes ByteStream

/-- The bytes of a PDU on the line. -/
def frame (pdu : Bytes) : Bytes := le32 (UInt32.ofNat pdu.length) ++ pdu

/-- The length read back. -/
theorem rd32_length {pdu : Bytes} (h : pdu.length < 2 ^ 32) :
    (rd32 (le32 (UInt32.ofNat pdu.length))).toNat = pdu.length := by
  rw [rd32_le32', UInt32.toNat_ofNat', Nat.mod_eq_of_lt h]

/-! ## The receiver's side -/

namespace UartTransport

/-- `UartTransport::send`, a write for the length and a write for the PDU. -/
def send (pdu : Bytes) (s : ByteStream) : ByteStream :=
  (s.write (le32 (UInt32.ofNat pdu.length))).write pdu

/-- The loop of `read_exact`: `got` of `n` bytes are in the buffer. -/
def readRounds (n got : Nat) (buf : Bytes) (s : ByteStream) : Except String Bytes × ByteStream :=
  if got < n then
    if (s.read (n - got)).1.length = 0 then (.error "UartTransport: read error", (s.read (n - got)).2)
    else
      readRounds n (got + (s.read (n - got)).1.length) (pwrite buf got (s.read (n - got)).1)
        (s.read (n - got)).2
  else (.ok buf, s)
termination_by n - got

/-- `read_exact` into a buffer of `n` bytes. -/
def readExact (n : Nat) (buf : Bytes) : Reader Bytes := readRounds n 0 buf

/-- `UartTransport::recv`. -/
def recv : Reader Bytes := fun s =>
  match readExact 4 (le32 0) s with
  | (.error e, s) => (.error e, s)
  | (.ok len, s) => readExact (rd32 len).toNat (zeros (rd32 len).toNat) s

def sendAll (pdus : List Bytes) (s : ByteStream) : ByteStream :=
  pdus.foldl (fun s pdu => send pdu s) s

theorem sendAll_eq (pdus : List Bytes) (s : ByteStream) :
    sendAll pdus s = s.write (pdus.flatMap frame) := by
  induction pdus generalizing s with
  | nil => simp [sendAll, ByteStream.write]
  | cons pdu pdus ih =>
    unfold sendAll
    rw [List.foldl_cons, ← sendAll, ih, List.flatMap_cons]
    simp only [send, ByteStream.write, frame, List.append_assoc]

/-- Each round writes what was read behind the bytes that are there. -/
theorem readRounds_of_collects {m : Nat} {s s' : ByteStream} {bs : Bytes} (h : Collects m s bs s')
    {n got : Nat} {buf : Bytes} (hm : got + m = n) (hbuf : buf.length = n) :
    readRounds n got buf s = (.ok (buf.take got ++ bs), s') := by
  induction h generalizing got buf with
  | done =>
    unfold readRounds
    rw [if_neg (by omega), List.append_nil, List.take_of_length_le (by omega)]
  | @round m s s' bs hpos hne hle _ ih =>
    have hmiss : n - got = m := by omega
    have hlen : (s.read m).1.length ≠ 0 := by rwa [Ne, List.length_eq_zero_iff]
    have hbuf' : (pwrite buf got (s.read m).1).length = n := by
      rw [length_pwrite hne]
      omega
    unfold readRounds
    rw [if_pos (by omega), hmiss, if_neg hlen, ih (by omega) hbuf', take_pwrite hne (by omega),
      List.append_assoc]

theorem reads_readExact {n : Nat} {buf bs : Bytes} (hbuf : buf.length = n) (hbs : bs.length = n) :
    Reads (readExact n buf) bs bs := by
  apply reads_of_collects hbs
  intro s s' hcol
  unfold readExact
  rw [readRounds_of_collects hcol (Nat.zero_add n) hbuf, List.take_zero, List.nil_append]

/-- `recv` takes one frame. -/
theorem reads_recv {pdu : Bytes} (h : pdu.length < 2 ^ 32) : Reads recv (frame pdu) pdu := by
  intro s rest hs
  rw [frame, List.append_assoc] at hs
  obtain ⟨s₁, h1, hs₁⟩ := reads_readExact (length_le32 0) (length_le32 _) s _ hs
  have hzeros : (zeros pdu.length).length = pdu.length := List.length_replicate
  obtain ⟨s₂, h2, hs₂⟩ := reads_readExact hzeros rfl s₁ rest hs₁
  refine ⟨s₂, ?_, hs₂⟩
  rw [recv, h1]
  simp only [rd32_length h, h2]

end UartTransport

/-! ## The sender's side -/

namespace Transport

/-- What the random numbers of one `send` decide: whether the PDU is lost, whether it is
corrupted, and which byte. -/
structure Dice where
  lost : Bool
  corrupted : Bool
  pos : Nat

/-- `send`; `none` if it raises: for the byte of an empty PDU, or a length beyond 32 bits. -/
def send (d : Dice) (pdu : Bytes) (s : ByteStream) : Option ByteStream :=
  if d.lost then some s
  else if d.corrupted ∧ pdu = [] then none
  else
    let pdu := if d.corrupted then pdu.modify (d.pos % pdu.length) (· ^^^ 0xFF) else pdu
    (packU32 pdu.length).map fun len => s.write (len ++ pdu)

/-- The loop of `_read_exact`. -/
def readRounds (n : Nat) (buf : Bytes) (s : ByteStream) : Except String Bytes × ByteStream :=
  if buf.length < n then
    if (s.read (n - buf.length)).1 = [] then
      (.error "Transport: connexion fermée", (s.read (n - buf.length)).2)
    else readRounds n (buf ++ (s.read (n - buf.length)).1) (s.read (n - buf.length)).2
  else (.ok buf, s)
termination_by n - buf.length
decreasing_by
  have hpos := List.length_pos_of_ne_nil (by assumption)
  rw [List.length_append]
  omega

/-- `_read_exact`. -/
def readExact (n : Nat) : Reader Bytes := readRounds n []

/-- `recv`; `ready` is what `select` reports before the timeout. -/
def recv (ready : Bool) : Reader (Option Bytes) := fun s =>
  if !ready then (.ok none, s)
  else
    match readExact 4 s with
    | (.error e, s) => (.error e, s)
    | (.ok len, s) =>
      match readExact (rd32 len).toNat s with
      | (.error e, s) => (.error e, s)
      | (.ok pdu, s) => (.ok (some pdu), s)

def sendAll : List (Dice × Bytes) → ByteStream → Option ByteStream
  | [], s => some s
  | (d, pdu) :: sends, s => (send d pdu s).bind (sendAll sends)

/-- The PDU is neither lost nor corrupted, and its length fits. -/
structure Intact (sent : Dice × Bytes) : Prop where
  lost : sent.1.lost = false
  corrupted : sent.1.corrupted = false
  length : sent.2.length < 2 ^ 32

theorem Intact.send {d : Dice} {pdu : Bytes} (h : Intact (d, pdu)) (s : ByteStream) :
    send d pdu s = some (s.write (frame pdu)) := by
  have hl : d.lost = false := h.lost
  have hc : d.corrupted = false := h.corrupted
  simp only [Transport.send, hl, hc, Bool.false_eq_true, false_and, if_false,
    packU32_natCast h.length, Option.map_some, frame]

theorem sendAll_eq {sends : List (Dice × Bytes)} (h : ∀ x ∈ sends, Intact x) (s : ByteStream) :
    sendAll sends s = some (s.write (sends.flatMap fun x => frame x.2)) := by
  induction sends generalizing s with
  | nil => simp [sendAll, ByteStream.write]
  | cons x sends ih =>
    obtain ⟨d, pdu⟩ := x
    have hx : Intact (d, pdu) := h _ List.mem_cons_self
    rw [sendAll, hx.send, Option.bind_some, ih (fun y hy => h y (List.mem_cons_of_mem _ hy)),
      List.flatMap_cons]
    simp only [ByteStream.write, List.append_assoc]

/-- Each round appends what was read. -/
theorem readRounds_of_collects {m : Nat} {s s' : ByteStream} {bs : Bytes} (h : Collects m s bs s')
    {n : Nat} {buf : Bytes} (hm : buf.length + m = n) :
    readRounds n buf s = (.ok (buf ++ bs), s') := by
  induction h generalizing buf with
  | done =>
    unfold readRounds
    rw [if_neg (by omega), List.append_nil]
  | @round m s s' bs hpos hne hle _ ih =>
    have hmiss : n - buf.length = m := by omega
    have hbuf' : (buf ++ (s.read m).1).length + (m - (s.read m).1.length) = n := by
      rw [List.length_append]
      omega
    unfold readRounds
    rw [if_pos (by omega), hmiss, if_neg hne, ih hbuf', List.append_assoc]

theorem reads_readExact {n : Nat} {bs : Bytes} (hbs : bs.length = n) : Reads (readExact n) bs bs := by
  apply reads_of_collects hbs
  intro s s' hcol
  have hnil : ([] : Bytes).length + n = n := Nat.zero_add n
  unfold readExact
  rw [readRounds_of_collects hcol hnil, List.nil_append]

/-- `recv` takes one frame, once `select` says that it can read. -/
theorem reads_recv {pdu : Bytes} (h : pdu.length < 2 ^ 32) :
    Reads (recv true) (frame pdu) (some pdu) := by
  intro s rest hs
  rw [frame, List.append_assoc] at hs
  obtain ⟨s₁, h1, hs₁⟩ := reads_readExact (length_le32 _) s _ hs
  obtain ⟨s₂, h2, hs₂⟩ := reads_readExact rfl s₁ rest hs₁
  refine ⟨s₂, ?_, hs₂⟩
  rw [recv, Bool.not_true, if_neg Bool.false_ne_true, h1]
  simp only [rd32_length h, h2]

end Transport

/-! ## Round trips -/

/-- **Frames survive every fragmentation.** Whatever the operating system delivers to each read,
the PDUs written by one side are what the other side receives, in order, and the bytes written
after them are left on the line. -/
theorem frames_roundtrip (sizes : Nat → Nat) (rest : Bytes) :
    (∀ pdus : List Bytes, (∀ pdu ∈ pdus, pdu.length < 2 ^ 32) →
      ∃ s', (Transport.recv true).repeat pdus.length
          ((UartTransport.sendAll pdus ⟨[], sizes⟩).write rest) = (.ok (pdus.map some), s') ∧
        s'.pending = rest) ∧
    ∀ sends : List (Transport.Dice × Bytes), (∀ x ∈ sends, Transport.Intact x) →
      ∃ s s', Transport.sendAll sends ⟨[], sizes⟩ = some s ∧
        UartTransport.recv.repeat sends.length (s.write rest) = (.ok (sends.map (·.2)), s') ∧
        s'.pending = rest := by
  refine ⟨fun pdus h => ?_, fun sends h => ?_⟩
  · have hreads : Reads ((Transport.recv true).repeat pdus.length) (pdus.flatMap frame)
        (pdus.map some) := Reads.repeat fun pdu hp => Transport.reads_recv (h pdu hp)
    apply hreads
    rw [UartTransport.sendAll_eq]
    rfl
  · have hreads : Reads (UartTransport.recv.repeat sends.length)
        (sends.flatMap fun x => frame x.2) (sends.map (·.2)) :=
      Reads.repeat fun x hx => UartTransport.reads_recv (h x hx).length
    have hsent := Transport.sendAll_eq h ⟨[], sizes⟩
    generalize hs : (⟨[], sizes⟩ : ByteStream).write (sends.flatMap fun x => frame x.2) = s at hsent
    obtain ⟨s', hs', hpending⟩ := hreads (s.write rest) rest (by rw [← hs]; rfl)
    exact ⟨s, s', hsent, hs', hpending⟩

/-- Two PDUs, one of them empty, byte by byte. -/
theorem frames_roundtrip_bytewise :
    (∃ s', (Transport.recv true).repeat 2
        ((UartTransport.sendAll [[0x01, 0x02], []] ⟨[], fun _ => 1⟩).write [0x2A]) =
          (.ok [some [0x01, 0x02], some []], s') ∧ s'.pending = [0x2A]) ∧
    ∃ s s', Transport.sendAll [(⟨false, false, 0⟩, [0x01, 0x02]), (⟨false, false, 0⟩, [])]
        ⟨[], fun _ => 1⟩ = some s ∧
      UartTransport.recv.repeat 2 (s.write [0x2A]) = (.ok [[0x01, 0x02], []], s') ∧
      s'.pending = [0x2A] := by
  obtain ⟨h1, h2⟩ := frames_roundtrip (fun _ => 1) [0x2A]
  refine ⟨h1 [[0x01, 0x02], []] ?_, h2 [(⟨false, false, 0⟩, [0x01, 0x02]), (⟨false, false, 0⟩, [])] ?_⟩
  · exact List.forall_mem_cons.mpr ⟨by decide, List.forall_mem_singleton.mpr (by decide)⟩
  · exact List.forall_mem_cons.mpr ⟨⟨rfl, rfl, by decide⟩,
      List.forall_mem_singleton.mpr ⟨rfl, rfl, by decide⟩⟩

end Cfdp
