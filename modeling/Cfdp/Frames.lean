import Cfdp.Framing

/-!
# Any bytes on the line

What is on the line need not be what the other side wrote: the two ends may have been started
at different times, and bytes get lost. Any bytes are a list of frames and a rest that is not a
whole frame, in one way only (`unframe`). Both sides read them so, however the stream is split
over the reads: they return the frames in order, and throw on the rest (`recv_unframe`).
-/

namespace Cfdp

open LittleEndian FileBytes ByteStream

/-! ## Frames of any bytes -/

/-- No whole frame is in front. -/
def Short (bs : Bytes) : Prop := bs.length < 4 ∨ bs.length < 4 + (rd32 bs).toNat

instance (bs : Bytes) : Decidable (Short bs) :=
  inferInstanceAs (Decidable (bs.length < 4 ∨ bs.length < 4 + (rd32 bs).toNat))

/-- The frames in front, and what is left. -/
def unframe (bs : Bytes) : List Bytes × Bytes :=
  if Short bs then ([], bs)
  else
    let next := unframe (bs.drop (4 + (rd32 bs).toNat))
    (slice bs 4 (rd32 bs).toNat :: next.1, next.2)
termination_by bs.length
decreasing_by
  simp only [Short, not_or, Nat.not_lt] at *
  rw [List.length_drop]
  omega

variable {bs rest pdu : Bytes} {pdus : List Bytes}

theorem unframe_short (h : Short bs) : unframe bs = ([], bs) := by
  unfold unframe
  rw [if_pos h]

/-- The frame in front. -/
theorem frame_front (h : ¬ Short bs) : (slice bs 4 (rd32 bs).toNat).length = (rd32 bs).toNat ∧
    bs = frame (slice bs 4 (rd32 bs).toNat) ++ bs.drop (4 + (rd32 bs).toNat) := by
  unfold Short at h
  have hlen : (slice bs 4 (rd32 bs).toNat).length = (rd32 bs).toNat :=
    length_slice_of_le (by omega)
  refine ⟨hlen, ?_⟩
  have hhead : le32 (rd32 bs) = bs.take 4 := le32_rd32 (by omega)
  unfold frame
  rw [hlen, UInt32.ofNat_toNat, hhead, slice, List.append_assoc, ← List.drop_drop,
    List.take_append_drop, List.take_append_drop]

theorem not_short_frame (h : pdu.length < 2 ^ 32) (rest : Bytes) : ¬ Short (frame pdu ++ rest) := by
  have hrd : (rd32 (frame pdu ++ rest)).toNat = pdu.length := by
    rw [frame, List.append_assoc, rd32_le32, UInt32.toNat_ofNat', Nat.mod_eq_of_lt h]
  unfold Short
  rw [hrd, frame, List.length_append, List.length_append, length_le32]
  omega

theorem unframe_frame (h : pdu.length < 2 ^ 32) (rest : Bytes) :
    unframe (frame pdu ++ rest) = (pdu :: (unframe rest).1, (unframe rest).2) := by
  have hrd : (rd32 (frame pdu ++ rest)).toNat = pdu.length := by
    rw [frame, List.append_assoc, rd32_le32, UInt32.toNat_ofNat', Nat.mod_eq_of_lt h]
  have hbody : (frame pdu ++ rest).drop 4 = pdu ++ rest := by
    rw [frame, List.append_assoc, List.drop_left' (length_le32 _)]
  conv => lhs; unfold unframe
  rw [if_neg (not_short_frame h rest), hrd, slice, ← List.drop_drop, hbody,
    List.take_left, List.drop_left]

/-- The split is one of the bytes. -/
theorem unframe_spec (bs : Bytes) : (∀ pdu ∈ (unframe bs).1, pdu.length < 2 ^ 32) ∧
    bs = (unframe bs).1.flatMap frame ++ (unframe bs).2 ∧ Short (unframe bs).2 := by
  fun_induction unframe bs with
  | case1 bs h =>
    refine ⟨fun pdu hpdu => ?_, rfl, h⟩
    cases hpdu
  | case2 bs h next ih =>
    obtain ⟨hlt, hsplit, hshort⟩ := ih
    obtain ⟨hlen, hfront⟩ := frame_front h
    refine ⟨fun pdu hpdu => ?_, ?_, hshort⟩
    · rcases List.mem_cons.mp hpdu with rfl | hpdu
      · rw [hlen]
        exact (rd32 bs).toNat_lt
      · exact hlt pdu hpdu
    · rw [List.flatMap_cons, List.append_assoc, ← hsplit]
      exact hfront

/-- There is no other. -/
theorem unframe_flatMap (h : ∀ pdu ∈ pdus, pdu.length < 2 ^ 32) (hr : Short rest) :
    unframe (pdus.flatMap frame ++ rest) = (pdus, rest) := by
  induction pdus with
  | nil => exact unframe_short hr
  | cons pdu pdus ih =>
    rw [List.flatMap_cons, List.append_assoc, unframe_frame (h pdu List.mem_cons_self),
      ih fun q hq => h q (List.mem_cons_of_mem pdu hq)]

/-! ## The readers -/

/-- What a reader of frames does with any bytes: it returns the frames, and throws on the rest. -/
def Unframes {α : Type} (recv : Reader α) (value : Bytes → α) (e : String) : Prop :=
  ∀ s, ∃ s₁ s₂, recv.repeat (unframe s.pending).1.length s =
      (.ok ((unframe s.pending).1.map value), s₁) ∧ s₁.pending = (unframe s.pending).2 ∧
    recv s₁ = (.error e, s₂) ∧ s₂.pending = []

theorem unframes {α : Type} {recv : Reader α} {value : Bytes → α} {e : String}
    (hframe : ∀ pdu, pdu.length < 2 ^ 32 → Reads recv (frame pdu) (value pdu))
    (hshort : ∀ bs, Short bs → Fails recv bs e) : Unframes recv value e := by
  intro s
  obtain ⟨hlt, hsplit, hrest⟩ := unframe_spec s.pending
  have hreads : Reads (recv.repeat (unframe s.pending).1.length) ((unframe s.pending).1.flatMap frame)
      ((unframe s.pending).1.map value) := Reads.repeat fun pdu hpdu => hframe pdu (hlt pdu hpdu)
  obtain ⟨s₁, h₁, hs₁⟩ := hreads s _ hsplit
  obtain ⟨s₂, h₂, hs₂⟩ := hshort _ hrest s₁ hs₁
  exact ⟨s₁, s₂, h₁, hs₁, h₂, hs₂⟩

/-- A reader of a length and a body, each collected: on a short rest one of them starves. -/
theorem fails_short {α : Type} {recv : Reader α} {e : String} {header : Reader Bytes}
    {body : Nat → Reader Bytes}
    (hheader : ∀ bs, bs.length = 4 → Reads header bs bs) (hno : ∀ bs, bs.length < 4 → Fails header bs e)
    (hbody : ∀ n bs, bs.length < n → Fails (body n) bs e)
    (h₁ : ∀ s s', header s = (.error e, s') → recv s = (.error e, s'))
    (h₂ : ∀ s s' s'' len, header s = (.ok len, s') → body (rd32 len).toNat s' = (.error e, s'') →
      recv s = (.error e, s'')) {bs : Bytes} (hs : Short bs) : Fails recv bs e := by
  intro s hbs
  by_cases h4 : bs.length < 4
  · obtain ⟨s', hs', hpending⟩ := hno bs h4 s hbs
    exact ⟨s', h₁ s s' hs', hpending⟩
  · have hlen : (bs.take 4).length = 4 := by
      rw [List.length_take]
      omega
    have hsplit : s.pending = bs.take 4 ++ bs.drop 4 := by rw [hbs, List.take_append_drop]
    obtain ⟨s', hs', hpending⟩ := hheader _ hlen s _ hsplit
    have hmiss : (bs.drop 4).length < (rd32 (bs.take 4)).toNat := by
      unfold Short at hs
      rw [rd32_take, List.length_drop]
      omega
    obtain ⟨s'', hs'', hend⟩ := hbody _ _ hmiss s' hpending
    exact ⟨s'', h₂ s s' s'' _ hs' hs'', hend⟩

namespace UartTransport

theorem readRounds_of_starves {m : Nat} {s s' : ByteStream} (h : Starves m s s') {n got : Nat}
    {buf : Bytes} (hm : got + m = n) :
    readRounds n got buf s = (.error "UartTransport: read error", s') := by
  induction h generalizing got buf with
  | @done m s hpos hnil =>
    have hmiss : n - got = m := by omega
    unfold readRounds
    rw [if_pos (by omega), hmiss, if_pos (by rw [hnil]; rfl)]
  | @round m s s' hpos hne hlt _ ih =>
    have hmiss : n - got = m := by omega
    have hlen : (s.read m).1.length ≠ 0 := by rwa [Ne, List.length_eq_zero_iff]
    unfold readRounds
    rw [if_pos (by omega), hmiss, if_neg hlen, ih (by omega)]

theorem fails_readExact {n : Nat} {buf bs : Bytes} (hbs : bs.length < n) :
    Fails (readExact n buf) bs "UartTransport: read error" :=
  fails_of_starves hbs fun _ _ h => readRounds_of_starves h (Nat.zero_add n)

theorem unframes_recv : Unframes recv id "UartTransport: read error" := by
  refine unframes (fun pdu h => reads_recv h) fun bs hs => ?_
  refine fails_short (fun bs h => reads_readExact (length_le32 0) h)
    (fun bs h => fails_readExact h) (fun n _ h => @fails_readExact n (zeros n) _ h)
    (fun s s' h => ?_) (fun s s' s'' len h h' => ?_) hs
  · rw [recv, h]
  · rw [recv, h]
    exact h'

end UartTransport

namespace Transport

theorem readRounds_of_starves {m : Nat} {s s' : ByteStream} (h : Starves m s s') {n : Nat}
    {buf : Bytes} (hm : buf.length + m = n) :
    readRounds n buf s = (.error "Transport: connexion fermée", s') := by
  induction h generalizing buf with
  | @done m s hpos hnil =>
    have hmiss : n - buf.length = m := by omega
    unfold readRounds
    rw [if_pos (by omega), hmiss, if_pos hnil]
  | @round m s s' hpos hne hlt _ ih =>
    have hmiss : n - buf.length = m := by omega
    have hbuf : (buf ++ (s.read m).1).length + (m - (s.read m).1.length) = n := by
      rw [List.length_append]
      omega
    unfold readRounds
    rw [if_pos (by omega), hmiss, if_neg hne, ih hbuf]

theorem fails_readExact {n : Nat} {bs : Bytes} (hbs : bs.length < n) :
    Fails (readExact n) bs "Transport: connexion fermée" :=
  fails_of_starves hbs fun _ _ h => readRounds_of_starves h (Nat.zero_add n)

theorem unframes_recv : Unframes (recv true) some "Transport: connexion fermée" := by
  refine unframes (fun pdu h => reads_recv h) fun bs hs => ?_
  refine fails_short (fun bs h => reads_readExact h) (fun bs h => fails_readExact h)
    (fun n bs h => fails_readExact h) (fun s s' h => ?_) (fun s s' s'' len h h' => ?_) hs
  · rw [recv, Bool.not_true, if_neg Bool.false_ne_true, h]
  · rw [recv, Bool.not_true, if_neg Bool.false_ne_true, h]
    simp only [h']

end Transport

/-- **Both sides read any bytes alike.** Whatever is on the line, and however it is split over the
reads, it is frames and a rest in one way only: the receiver and the sender return the PDUs of
these frames, in order, and throw on the rest. -/
theorem recv_unframe (s : ByteStream) :
    (∀ pdus rest, ((∀ pdu ∈ pdus, pdu.length < 2 ^ 32) ∧ s.pending = pdus.flatMap frame ++ rest ∧
      Short rest) ↔ (pdus, rest) = unframe s.pending) ∧
    (∃ s₁ s₂, UartTransport.recv.repeat (unframe s.pending).1.length s =
        (.ok (unframe s.pending).1, s₁) ∧ s₁.pending = (unframe s.pending).2 ∧
      UartTransport.recv s₁ = (.error "UartTransport: read error", s₂) ∧ s₂.pending = []) ∧
    ∃ s₁ s₂, (Transport.recv true).repeat (unframe s.pending).1.length s =
        (.ok ((unframe s.pending).1.map some), s₁) ∧ s₁.pending = (unframe s.pending).2 ∧
      Transport.recv true s₁ = (.error "Transport: connexion fermée", s₂) ∧ s₂.pending = [] := by
  refine ⟨fun pdus rest => ⟨?_, ?_⟩, ?_, Transport.unframes_recv s⟩
  · rintro ⟨hlt, hsplit, hrest⟩
    rw [hsplit, unframe_flatMap hlt hrest]
  · intro h
    obtain ⟨rfl, rfl⟩ := Prod.mk.inj h
    exact unframe_spec s.pending
  · have hread := UartTransport.unframes_recv s
    rwa [List.map_id] at hread

end Cfdp
