import Cfdp.Answers
import Cfdp.Guards
import Cfdp.JournalFile

/-!
# Booting on any journal file

The loader takes a record for good once the stream has delivered it; its fields are
not checked, and the byte of `eof_received` is copied into a `bool` as it is. So a boot is
safe exactly if the file is rejected, or its record is within the bounds of
`handle_metadata`, or the transfer it describes is complete and ends at once, which
takes an `eof_received` of 1: any other byte but 0 may be taken for either value.
-/

namespace Cfdp

open Crash Prog Machine

/-- PDUs are delivered; nothing else happens from outside. -/
def Delivery (_ : Node) (a : Action) : Prop := ∃ raw o cut, a = .recv raw o cut

namespace CfdpReceiver

variable {rx : CfdpReceiver} {env : Env}

/-- Without a transfer the fields are consistent, whatever the record holds. -/
theorem ok_idle (hwf : rx.packetList.Wf)
    (hidle : rx.currentChunkIndex = uint32Max → rx.packetList = {})
    (ha : rx.transferActive = false) : rx.Ok where
  wf := hwf
  idle := hidle
  sane h := by rw [ha] at h; cases h
  seen h := by rw [ha] at h; cases h
  busy h := by rw [ha] at h; cases h
  missing h := by rw [ha] at h; cases h

/-- The transfer of a record with every chunk done and the Eof seen ends at once. -/
theorem complete_ends (hm : rx.state.computeMissingChunks = []) (he : rx.state.eofReceived = true)
    (verified : Bool) : (rx.activate.complete verified).1.Ok ∧
      (rx.activate.complete verified).1.transferActive = false := by
  have hc : rx.activate.completion = .verify := by
    rcases rx.activate.completionCase with ⟨he', -⟩ | ⟨-, hu, -⟩ | ⟨-, -, cr, hs, -⟩ |
      ⟨-, -, -, hne, -⟩ | ⟨-, -, -, hc⟩
    · rw [show rx.activate.state.eofReceived = true from he] at he'
      cases he'
    · cases hu
    · unfold sentMissing at hs
      rw [show rx.activate.state.computeMissingChunks = [] from hm] at hs
      cases hs
    · exact absurd hm hne
    · exact hc
  unfold complete
  rw [hc]
  cases verified
  · exact ⟨ok_idle PacketList.wf_empty (fun _ => rfl) rfl, rfl⟩
  · exact ⟨ok_idle PacketList.wf_empty (fun _ => rfl) rfl, rfl⟩

/-- What a boot does with a record that is loaded. -/
theorem replyBoot_loaded (garbage s : JournalState) (verified : Bool) :
    let rx := ((construct garbage).replyBoot verified (some (true, s))).1
    (s.computeMissingChunks = [] ∧ s.eofReceived = true → rx.Ok ∧ rx.transferActive = false) ∧
      (¬ (s.computeMissingChunks = [] ∧ s.eofReceived = true) →
        rx.transferActive = true ∧ rx.state = s ∧ (s.Sane → rx.Ok)) := by
  intro rx
  constructor
  · intro hc
    have hrx : rx = ((activate { construct garbage with state := s }).complete verified).1 := by
      simp only [rx, replyBoot, if_pos hc]
    rw [hrx]
    exact @complete_ends { construct garbage with state := s } hc.1 hc.2 verified
  · intro hc
    have hrx : rx = activate { construct garbage with state := s } := by
      simp only [rx, replyBoot, if_neg hc]
    rw [hrx]
    exact ⟨rfl, rfl, fun hs => ⟨steady_activate _ hs, fun _ he hm => hc ⟨hm, he⟩⟩⟩

/-- Deliveries keep the fields consistent, whatever is on the disk. -/
theorem Ok.delivered {w w' : World} {hist : List Moment} (hok : w.rx.Ok)
    (h : Node.Run env Delivery (.up w) hist (.up w')) : w'.rx.Ok := by
  refine h.inv (I := fun _ n => ∀ w, n = .up w → w.rx.Ok)
    (fun _ hw => by cases hw; exact hok) ?_ w' rfl
  intro hist n a ms n' hi ha hs x hx
  obtain ⟨raw, o, cut, rfl⟩ := ha
  subst hx
  cases n with
  | down disk log => cases hs
  | up y =>
    simp only [Node.step, Option.map_eq_some_iff] at hs
    obtain ⟨⟨ws, n⟩, hf, hr⟩ := hs
    cases hr
    rw [(Node.finish_up (wp_reply raw) hf).1]
    exact (hi y rfl).reply _ raw

end CfdpReceiver

/-- After a boot no transfer is active or the record is within the bounds `handle_metadata` enforces;
and no PDU after it divides by zero or leaves `chunk_done`. -/
def BootSafe (env : Env) (o : Oracle) (garbage : JournalState) (disk : Disk)
    (log : List Event) : Prop :=
  ∃ ms w, Node.step env (.down disk log) (.boot garbage o none) = some (ms, .up w) ∧
    (w.rx.transferActive = true → w.rx.state.Sane) ∧
    ∀ hist w', Node.Run env Delivery (.up w) hist (.up w') → ∀ raw o',
      Tested.onPduReceived env o' raw w' = untested (onPduReceived env o' raw) w'

section

variable {env : Env} {o : Oracle} {garbage : JournalState} {disk : Disk} {log : List Event} {c : Bytes}

/-- Consistent fields after the boot make it safe. -/
theorem bootSafe_of_ok {ms : List Moment} {w : World}
    (hs : Node.step env (.down disk log) (.boot garbage o none) = some (ms, .up w)) (hok : w.rx.Ok) :
    BootSafe env o garbage disk log :=
  ⟨ms, w, hs, hok.sane, fun _ _ hr raw _ => Tested.onPduReceived_eq (hok.delivered hr) raw⟩

/-- What there is to load from a file that opens. -/
theorem loaded_of_opens (hc : disk.stateBin = some c) (ho : o.fails .journalOpen = false) :
    World.loaded o ⟨.construct garbage, disk, log⟩ =
      some (JournalState.readFromDisk o.oddBool (some c) (CfdpReceiver.construct garbage).state) := by
  simp [World.loaded, World.loads, hc, ho]

/-- A whole file whose transfer is not complete is taken as it is. -/
theorem boot_takes (hc : disk.stateBin = some c) (ho : o.fails .journalOpen = false)
    (hw : JournalState.Whole c) (hopen : ¬ ((JournalState.ofBytes o.oddBool c).computeMissingChunks = [] ∧
      (JournalState.ofBytes o.oddBool c).eofReceived = true)) :
    ∃ ms w, Node.step env (.down disk log) (.boot garbage o none) = some (ms, .up w) ∧
      w.rx.transferActive = true ∧ w.rx.state = JournalState.ofBytes o.oddBool c ∧
      ((JournalState.ofBytes o.oddBool c).Sane → w.rx.Ok) := by
  obtain ⟨ms, w, hs, hrx, -⟩ := boots env disk log garbage o
  rw [loaded_of_opens hc ho, JournalState.readFromDisk_whole hw] at hrx
  have h := (CfdpReceiver.replyBoot_loaded garbage _ (verifyFileChecksum env o w)).2 hopen
  exact ⟨ms, w, hs, by rw [hrx]; exact h⟩

/-- Otherwise the boot leaves no transfer active. -/
theorem boot_idle (hc : disk.stateBin = some c) (h : o.fails .journalOpen = true ∨
      ¬ JournalState.Whole c ∨ (JournalState.ofBytes o.oddBool c).computeMissingChunks = [] ∧
        (JournalState.ofBytes o.oddBool c).eofReceived = true) : BootSafe env o garbage disk log := by
  obtain ⟨ms, w, hs, hrx, -⟩ := boots env disk log garbage o
  refine bootSafe_of_ok hs ?_
  have hrejected (s : JournalState) :
      CfdpReceiver.Ok { CfdpReceiver.construct garbage with state := s } :=
    CfdpReceiver.ok_idle PacketList.wf_empty (fun _ => rfl) rfl
  rw [hrx]
  cases ho : o.fails .journalOpen with
  | true =>
    unfold World.loaded
    rw [if_neg (by simp [hc]), World.loads, if_pos ho]
    exact hrejected _
  | false =>
    rw [loaded_of_opens hc ho]
    by_cases hw : JournalState.Whole c
    · rw [JournalState.readFromDisk_whole hw]
      rw [ho] at h
      rcases h with h | h | h
      · cases h
      · exact absurd hw h
      · exact ((CfdpReceiver.replyBoot_loaded garbage _ (verifyFileChecksum env o w)).1 h).1
    · have hl := JournalState.readFromDisk_short hw o.oddBool (CfdpReceiver.construct garbage).state
      generalize JournalState.readFromDisk o.oddBool (some c) (CfdpReceiver.construct garbage).state = l
        at hl
      obtain ⟨ok, s⟩ := l
      cases hl
      exact hrejected s

/-- With `eof_received` read in one way, a boot is safe exactly if the journal does not open, is
rejected, holds a record within the bounds, or describes a transfer that is complete. -/
theorem bootSafe_read_iff (hc : disk.stateBin = some c) : BootSafe env o garbage disk log ↔
    o.fails .journalOpen = true ∨ ¬ JournalState.Whole c ∨ (JournalState.ofBytes o.oddBool c).Sane ∨
      (JournalState.ofBytes o.oddBool c).computeMissingChunks = [] ∧
        (JournalState.ofBytes o.oddBool c).eofReceived = true := by
  by_cases hidle : o.fails .journalOpen = true ∨ ¬ JournalState.Whole c ∨
      (JournalState.ofBytes o.oddBool c).computeMissingChunks = [] ∧ (JournalState.ofBytes o.oddBool c).eofReceived = true
  · refine iff_of_true (boot_idle hc hidle) ?_
    rcases hidle with h | h | h
    · exact .inl h
    · exact .inr (.inl h)
    · exact .inr (.inr (.inr h))
  simp only [not_or, not_not] at hidle
  obtain ⟨ho, hw, hopen⟩ := hidle
  obtain ⟨ms, w, hs, hact, hstate, hok⟩ := @boot_takes env o garbage disk log c hc
    (by simpa using ho) hw hopen
  constructor
  · rintro ⟨ms', w', hs', hsane, -⟩
    rw [hs] at hs'
    cases hs'
    rw [hstate] at hsane
    exact .inr (.inr (.inl (hsane hact)))
  · rintro (h | h | h | h)
    · exact absurd h ho
    · exact absurd hw h
    · exact bootSafe_of_ok hs (hok h)
    · exact absurd h hopen

/-- A byte is read as `true` in either way only if it is 1. -/
theorem JournalState.boolOf_all {b : UInt8} : (∀ odd, boolOf odd b = true) ↔ b = 1 := by
  constructor
  · intro h
    have hfalse := h false
    unfold boolOf at hfalse
    split at hfalse
    · cases hfalse
    · split at hfalse
      · assumption
      · cases hfalse
  · rintro rfl odd
    rfl

/-- The bounds are on other fields. -/
theorem JournalState.sane_reread (odd odd' : Bool) : (ofBytes odd c).Sane ↔ (ofBytes odd' c).Sane :=
  ⟨fun h => ⟨h.packetSize, h.chunkSize, h.totalChunks, h.flags⟩,
    fun h => ⟨h.packetSize, h.chunkSize, h.totalChunks, h.flags⟩⟩

/-- **A boot is safe**, however a byte that is no `bool` is read, exactly if the journal does not open,
is rejected, holds a record within the bounds, or describes a transfer that is complete, the byte of
its `eof_received` being 1. -/
theorem bootSafe_iff (hc : disk.stateBin = some c) :
    (∀ odd, BootSafe env { o with oddBool := odd } garbage disk log) ↔
      o.fails .journalOpen = true ∨ ¬ JournalState.Whole c ∨ (JournalState.ofBytes o.oddBool c).Sane ∨
        (JournalState.ofBytes o.oddBool c).computeMissingChunks = [] ∧ JournalState.eofByte c = 1 := by
  have hread (odd : Bool) : BootSafe env { o with oddBool := odd } garbage disk log ↔
      o.fails .journalOpen = true ∨ ¬ JournalState.Whole c ∨ (JournalState.ofBytes o.oddBool c).Sane ∨
        (JournalState.ofBytes o.oddBool c).computeMissingChunks = [] ∧
          JournalState.boolOf odd (JournalState.eofByte c) = true := by
    rw [bootSafe_read_iff hc, JournalState.sane_reread odd o.oddBool]
    rfl
  rw [forall_congr' hread, forall_or_left, forall_or_left, forall_or_left, forall_and_left,
    JournalState.boolOf_all]

/-- The journal of a file of one byte, with some packet size, its chunk done or not, and some byte for
`eof_received`. -/
def oneByteJournal (packetSize : UInt32) (done : Bool) (eof : UInt8) : Bytes :=
  { JournalState.blank with
    transactionId := 1
    fileSize := 1
    chunkSize := 1
    packetSize := packetSize
    totalChunks := 1
    chunkDone := [done] }.encode.set 28 eof

/-- A disk with nothing but a journal. -/
def journalDisk (c : Bytes) : Disk := ⟨some c, none, fun _ => none⟩

/-- With a byte that is no `bool` the record is within the bounds; with packet size 0 the transfer
ends at boot. -/
theorem bootSafe_small :
    BootSafe sampleEnv noFaults .blank (journalDisk (oneByteJournal 1 true 2)) [] ∧
      BootSafe sampleEnv noFaults .blank (journalDisk (oneByteJournal 0 true 1)) [] := by
  constructor
  · have hsane : (JournalState.ofBytes true (oneByteJournal 1 true 2)).Sane :=
      ⟨by decide +kernel, by decide +kernel, by decide +kernel, by decide +kernel⟩
    exact (@bootSafe_iff sampleEnv noFaults .blank (journalDisk (oneByteJournal 1 true 2)) [] _ rfl).mpr
      (.inr (.inr (.inl hsane))) true
  · exact (@bootSafe_iff sampleEnv noFaults .blank (journalDisk (oneByteJournal 0 true 1)) [] _ rfl).mpr
      (.inr (.inr (.inr ⟨by decide +kernel, by decide +kernel⟩))) true

/-- A journal with packet size 0 is loaded. -/
theorem not_bootSafe : ¬ ∀ (env : Env) (o : Oracle) (garbage : JournalState) (disk : Disk)
    (log : List Event) (c : Bytes), disk.stateBin = some c → BootSafe env o garbage disk log := by
  intro h
  obtain ⟨ms, w, hrun, hact, hstate, -⟩ := @boot_takes sampleEnv noFaults .blank
    (journalDisk (oneByteJournal 0 false 0)) [] _ rfl rfl (by decide +kernel) (by decide +kernel)
  obtain ⟨ms', w', hrun', hsane, -⟩ := h sampleEnv noFaults .blank
    (journalDisk (oneByteJournal 0 false 0)) [] _ rfl
  rw [hrun] at hrun'
  cases hrun'
  have := (hsane hact).packetSize.1
  rw [hstate] at this
  exact absurd this (by decide +kernel)

end

end Cfdp
