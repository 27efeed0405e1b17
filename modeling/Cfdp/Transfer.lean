import Cfdp.Geometry
import Cfdp.Sender

/-!
# One transfer at the receiver

What the receiver holds of a transfer `x`, as long as every PDU it gets is one a
sender of `x` emits and no call fails: the record is that of `x` (`Matches`),
the slots hold the packets of the source file (`SlotsOk`), and every chunk
marked done, in memory or in the journal, is in the destination file
(`Inv`, `Stored`). `Inv` holds at every moment, also between the steps of a
handler, so a crash needs no case of its own.
-/

namespace Cfdp

open Crash Prog LittleEndian FileBytes

namespace Transfer

variable {env : Env} {x : Transfer} {o : Oracle} {ci pi : Nat}

/-! ## Chunks of the source file -/

/-- Where chunk `ci` ends. -/
def chunkEnd (x : Transfer) (ci : Nat) : Nat := min ((ci + 1) * x.chunkSize) x.file.length

theorem chunk_lt (hcs : 0 < x.chunkSize) (h : ci < x.totalChunks) :
    ci * x.chunkSize < x.file.length := by
  have h1 : (ci + 1) * x.chunkSize ≤ x.totalChunks * x.chunkSize := Nat.mul_le_mul_right _ h
  have h2 : x.totalChunks * x.chunkSize ≤ x.file.length + x.chunkSize - 1 := Nat.div_mul_le_self _ _
  rw [Nat.add_mul, Nat.one_mul] at h1
  omega

theorem length_le (hcs : 0 < x.chunkSize) : x.file.length ≤ x.totalChunks * x.chunkSize := by
  have h := Nat.lt_div_mul_add hcs (a := x.file.length + x.chunkSize - 1)
  rw [← totalChunks] at h
  omega

theorem chunkEnd_eq (h : ci * x.chunkSize ≤ x.file.length) :
    x.chunkEnd ci = ci * x.chunkSize + x.chunkLen ci := by
  unfold chunkEnd
  rw [chunkLen, Nat.add_mul, Nat.one_mul]
  omega

theorem chunkLen_pos (hcs : 0 < x.chunkSize) (h : ci < x.totalChunks) : 0 < x.chunkLen ci := by
  have := chunk_lt hcs h
  rw [chunkLen]; omega

theorem chunkLen_le (ci : Nat) (hps : 0 < x.packetSize) :
    x.chunkLen ci ≤ x.numPackets ci * x.packetSize := by
  have h := Nat.lt_div_mul_add hps (a := x.chunkLen ci + x.packetSize - 1)
  rw [← numPackets] at h
  omega

/-- The first packets of a chunk are its first bytes. -/
theorem flatMap_packetData (x : Transfer) (ci n : Nat) :
    (List.range n).flatMap (x.packetData ci) =
      slice x.file (ci * x.chunkSize) (min (n * x.packetSize) (x.chunkLen ci)) := by
  induction n with
  | zero => simp [slice]
  | succ n ih =>
    rw [List.range_succ, List.flatMap_append, ih, List.flatMap_singleton, packetData, packetLen]
    by_cases h : n * x.packetSize ≤ x.chunkLen ci
    · rw [Nat.min_eq_left h, slice_append, Nat.add_mul, Nat.one_mul]
      congr 1; omega
    · rw [Nat.min_eq_right (by omega), show x.chunkLen ci - n * x.packetSize = 0 by omega,
        Nat.zero_min, Nat.add_mul, Nat.one_mul, Nat.min_eq_right (by omega)]
      simp [slice]

/-! ## The record -/

/-- The name in the Metadata, cut at 255 bytes. -/
def fileName (x : Transfer) : Bytes := ((asciiEncode x.destFilename).getD []).take 255

/-- The destination file. -/
def path (env : Env) (x : Transfer) : Bytes :=
  (cstr env.recvDir ++ 0x2F :: cstr x.fileName).take 511

/-- `s` is the record of transfer `x`. -/
structure Matches (env : Env) (x : Transfer) (s : JournalState) : Prop where
  tid : s.transactionId = x.tid
  fileSize : s.fileSize.toNat = x.file.length
  chunkSize : s.chunkSize.toNat = x.chunkSize
  packetSize : s.packetSize.toNat = x.packetSize
  totalChunks : s.totalChunks.toNat = x.totalChunks
  checksum : s.checksumExpected = x.checksum env.crc32
  path : s.recvFilePath = x.path env
  sane : s.Sane

theorem Matches.markDone {s : JournalState} (h : x.Matches env s) (ci : UInt32) :
    x.Matches env (s.markDone ci) :=
  { h with sane := h.sane.markDone ci }

theorem Matches.markEof {s : JournalState} (h : x.Matches env s) : x.Matches env s.markEof :=
  { h with sane := h.sane.markEof }

/-- Accepting the Metadata of `x` starts the record of `x`. -/
theorem matches_start {name : Bytes} (hp : x.Packable name)
    (hs : (x.metadata env.crc32 name).sane = true) (s : JournalState) :
    x.Matches env (s.start env o (x.metadata env.crc32 name)) where
  tid := rfl
  fileSize := by
    show (UInt64.ofNat x.file.length).toNat = _
    rw [UInt64.toNat_ofNat', Nat.mod_eq_of_lt hp.fileSize]
  chunkSize := by
    show (UInt32.ofNat x.chunkSize).toNat = _
    rw [UInt32.toNat_ofNat', Nat.mod_eq_of_lt hp.chunkSize.2]
  packetSize := by
    show (UInt32.ofNat x.packetSize).toNat = _
    rw [UInt32.toNat_ofNat', Nat.mod_eq_of_lt hp.packetSize]
  totalChunks := by
    show (UInt32.ofNat x.totalChunks).toNat = _
    rw [UInt32.toNat_ofNat', Nat.mod_eq_of_lt hp.totalChunks]
  checksum := rfl
  path := by
    have hname : x.fileName = name.take 255 := by rw [fileName, hp.ascii]; rfl
    rw [JournalState.recvFilePath_start, destString, path, hname]
    have h255 : (name.take 255).length < 256 := by rw [List.length_take]; omega
    rw [show (x.metadata env.crc32 name).filename = CharArray.ofBytes 256 (name.take 255) from rfl,
      cstr_ofBytes h255]
  sane := JournalState.start_sane hs s

/-! ## Well-formed transfers -/

/-- A transfer the receiver takes, with a geometry that does not overflow. -/
structure WellFormed (x : Transfer) : Prop where
  tid : x.tid ≠ 0
  file : x.file ≠ []
  chunkSize : 0 < x.chunkSize
  packetSize : 0 < x.packetSize ∧ x.packetSize ≤ defaultPacketSize
  sizes : x.chunkSize + x.packetSize ≤ 2 ^ 32
  totalChunks : x.totalChunks ≤ 2 ^ 20
  name : ∃ name, asciiEncode x.destFilename = some name ∧ safeName (cstr (name.take 255)) = true

/-- With the sizes `__init__` sets, any file of up to a tebibyte can be sent. -/
theorem wellFormed_default {file : Bytes} {destFilename : List Char} (hne : file ≠ [])
    (hlen : file.length ≤ 2 ^ 40) (hname : ∃ name, asciiEncode destFilename = some name ∧
      safeName (cstr (name.take 255)) = true) :
    ({ file := file, destFilename := destFilename } : Transfer).WellFormed where
  tid := (by decide : (1 : UInt32) ≠ 0)
  file := hne
  chunkSize := (by decide : 0 < 1024 * 1024)
  packetSize := ⟨(by decide : 0 < 2048), (by decide : 2048 ≤ defaultPacketSize)⟩
  sizes := (by decide : 1024 * 1024 + 2048 ≤ 2 ^ 32)
  totalChunks := by
    show (file.length + 1024 * 1024 - 1) / (1024 * 1024) ≤ 2 ^ 20
    omega
  name := hname

theorem wellFormed_five : five.WellFormed where
  tid := (by decide : (1 : UInt32) ≠ 0)
  file := List.cons_ne_nil _ _
  chunkSize := (by decide : 0 < 3)
  packetSize := ⟨Nat.two_pos, (by decide : 2 ≤ defaultPacketSize)⟩
  sizes := (by decide : 3 + 2 ≤ 2 ^ 32)
  totalChunks := (by decide : five.totalChunks ≤ 2 ^ 20)
  name := ⟨[0x61], (by decide : asciiEncode ['a'] = _), by decide⟩

/-- Files in chunks and packets of one byte. -/
theorem wellFormed_small {file : Bytes} (hne : file ≠ []) (hlen : file.length ≤ 2 ^ 20) :
    (small file).WellFormed where
  tid := (by decide : (1 : UInt32) ≠ 0)
  file := hne
  chunkSize := Nat.one_pos
  packetSize := ⟨Nat.one_pos, (by decide : 1 ≤ defaultPacketSize)⟩
  sizes := (by decide : 1 + 1 ≤ 2 ^ 32)
  totalChunks := by simpa [totalChunks, small] using hlen
  name := ⟨[0x61], (by decide : asciiEncode ['a'] = _), by decide⟩

theorem WellFormed.length_lt (h : x.WellFormed) : x.file.length < 2 ^ 53 := by
  have h1 := length_le h.chunkSize
  have h2 : x.totalChunks * x.chunkSize ≤ 2 ^ 20 * 2 ^ 32 :=
    Nat.mul_le_mul h.totalChunks (by have := h.sizes; have := h.packetSize; omega)
  omega

theorem WellFormed.totalChunks_pos (h : x.WellFormed) : 0 < x.totalChunks := by
  have h1 := length_le h.chunkSize
  have h2 : 0 < x.file.length := List.length_pos_iff.mpr h.file
  rcases Nat.eq_zero_or_pos x.totalChunks with h0 | h0
  · rw [h0] at h1; omega
  · exact h0

theorem WellFormed.numPackets_pos (h : x.WellFormed) (hci : ci < x.totalChunks) :
    0 < x.numPackets ci := by
  have h1 := chunkLen_pos h.chunkSize hci
  have h2 := h.packetSize.1
  exact Nat.div_pos (by omega) h2

/-! ## Sizes -/

/-- Sizes with which neither program overflows. -/
structure Sizes (x : Transfer) : Prop where
  chunkSize : 0 < x.chunkSize
  packetSize : 0 < x.packetSize ∧ x.packetSize ≤ defaultPacketSize
  sizes : x.chunkSize + x.packetSize ≤ 2 ^ 32

theorem WellFormed.toSizes (hx : x.WellFormed) : x.Sizes := ⟨hx.chunkSize, hx.packetSize, hx.sizes⟩

theorem Matches.regular {s : JournalState} (h : x.Matches env s) (hx : x.Sizes) : s.Regular where
  sane := h.sane
  totalChunks := by
    rw [h.totalChunks, h.fileSize, h.chunkSize]
    rfl
  sizes := by
    have h1 := hx.chunkSize
    have h2 := hx.sizes
    rw [h.chunkSize, h.packetSize]
    omega

theorem Matches.numPackets {s : JournalState} (h : x.Matches env s) (ci : Nat) :
    s.numPackets ci = x.numPackets ci := by
  unfold JournalState.numPackets JournalState.chunkLen Transfer.numPackets Transfer.chunkLen
  rw [h.fileSize, h.chunkSize, h.packetSize]

/-- The packets of a chunk, counted by the receiver. -/
theorem Matches.expectedPkts {s : JournalState} (h : x.Matches env s) (hx : x.WellFormed) {k : UInt32}
    (hk : k.toNat < x.totalChunks) : (s.expectedPkts k).toNat = x.numPackets k.toNat := by
  have hlt : k.toNat < s.totalChunks.toNat := by
    rw [h.totalChunks]
    exact hk
  rw [(h.regular hx.toSizes).expectedPkts hlt, h.numPackets]

/-! ## Destination file -/

/-- The destination file holds chunk `ci`. -/
def ChunkStored (x : Transfer) (c : Option Bytes) (ci : Nat) : Prop :=
  ∃ g, c = some g ∧ AgreeOn x.file g (ci * x.chunkSize) (x.chunkEnd ci)

/-- Every chunk marked done in `s` is in the file. -/
def MarksStored (x : Transfer) (c : Option Bytes) (s : JournalState) : Prop :=
  ∀ ci, s.isDone ci = true → x.ChunkStored c ci.toNat

def Fits (x : Transfer) (c : Option Bytes) : Prop := ∀ g, c = some g → g.length ≤ x.file.length

/-- What a file has beyond the length of the source file. -/
def surplus (x : Transfer) (c : Option Bytes) : Bytes := (c.getD []).drop x.file.length

theorem surplus_none (x : Transfer) : x.surplus none = [] := List.drop_nil

theorem fits_iff {c : Option Bytes} : x.Fits c ↔ x.surplus c = [] := by
  unfold Fits surplus
  cases c with
  | none => simp
  | some g => simp [List.drop_eq_nil_iff]

/-- `c'` holds of the source file all that `c` holds. -/
structure Extends (x : Transfer) (c c' : Option Bytes) : Prop where
  stored : ∀ ci, x.ChunkStored c ci → x.ChunkStored c' ci
  same : c = some x.file → c' = some x.file
  fits : x.Fits c → x.Fits c'

theorem MarksStored.mono {c c' : Option Bytes} {s : JournalState} (h : x.MarksStored c s)
    (he : x.Extends c c') : x.MarksStored c' s := fun ci hd => he.stored _ (h ci hd)

theorem extends_refl (x : Transfer) (c : Option Bytes) : x.Extends c c := ⟨fun _ h => h, id, id⟩

/-- A new destination file extends a missing one. -/
theorem extends_none {c' : Option Bytes} (h : x.Fits c') : x.Extends none c' where
  stored _ h := by obtain ⟨g, hg, -⟩ := h; cases hg
  same h := by cases h
  fits _ := h

/-- Writing bytes of the source file at their place extends the destination. -/
theorem extends_pwrite (base : Bytes) (off n : Nat) :
    x.Extends (some base) (some (pwrite base off (slice x.file off n))) where
  stored ci h := by
    obtain ⟨g, hg, ha⟩ := h
    cases hg
    exact ⟨_, rfl, ha.pwrite_slice⟩
  same h := by cases h; rw [pwrite_slice_self]
  fits h g hg := by cases hg; exact length_pwrite_slice_le (h base rfl)

/-- A chunk is stored once it is written at its place. -/
theorem chunkStored_pwrite (h : ci * x.chunkSize ≤ x.file.length) (base : Bytes) :
    x.ChunkStored (some (pwrite base (ci * x.chunkSize) (slice x.file (ci * x.chunkSize) (x.chunkLen ci)))) ci := by
  refine ⟨_, rfl, ?_⟩
  rw [chunkEnd_eq h]
  refine agreeOn_pwrite_slice ?_
  unfold chunkLen
  omega

/-- No chunk of a new record is done. -/
theorem marksStored_start (c : Option Bytes) (s : JournalState) (m : MetadataPdu) :
    x.MarksStored c (s.start env o m) := by
  intro ci hd
  simp [JournalState.isDone, JournalState.start, List.getD_eq_getElem?_getD,
    List.getElem?_replicate] at hd
  split at hd <;> cases hd

theorem Extends.trans {c c' c'' : Option Bytes} (h : x.Extends c c') (h' : x.Extends c' c'') :
    x.Extends c c'' :=
  ⟨fun ci hc => h'.stored ci (h.stored ci hc), fun hs => h'.same (h.same hs),
    fun hf => h'.fits (h.fits hf)⟩

section

variable {files : Bytes → Option Bytes} {p : Bytes} {fileSize : UInt64} {off n : Nat}

theorem extends_base (ho : o.Smooth) (hs : fileSize.toNat = x.file.length) (hne : 0 < x.file.length)
    {base : Bytes} (h : DestBase o files p fileSize base) : x.Extends (files p) (some base) := by
  rcases h with h | ⟨h1, h2⟩
  · rw [h]; exact extends_refl x _
  rw [h1.resolve_right (fun hn => hn ho)]
  refine extends_none fun g hg => ?_
  cases hg
  rcases h2 with rfl | rfl
  · exact Nat.zero_le _
  · have hlast : (fileSize - 1).toNat = x.file.length - 1 := by
      have := fileSize.toNat_lt
      rw [UInt64.toNat_sub, show (1 : UInt64).toNat = 1 from rfl]; omega
    rw [length_pwrite (by simp), hlast]
    simp; omega

/-- The file that is opened or created has nothing beyond the old one. -/
theorem surplus_base (ho : o.Smooth) (hs : fileSize.toNat = x.file.length) (hne : 0 < x.file.length)
    {base : Bytes} (h : DestBase o files p fileSize base) :
    x.surplus (some base) = x.surplus (files p) := by
  have hext := extends_base ho hs hne h
  rcases h with h | ⟨h, -⟩
  · rw [h]
  · rw [h.resolve_right fun hn => hn ho] at hext ⊢
    rw [surplus_none]
    exact fits_iff.mp (hext.fits fun g hg => by cases hg)

theorem surplus_pwrite (x : Transfer) (base : Bytes) (off n : Nat) :
    x.surplus (some (pwrite base off (slice x.file off n))) = x.surplus (some base) :=
  drop_pwrite_slice x.file base off n

theorem surplus_stage (ho : o.Smooth) (hs : fileSize.toNat = x.file.length) (hne : 0 < x.file.length)
    {c : Option Bytes} (h : Stage o files p fileSize off (slice x.file off n) c) :
    x.surplus c = x.surplus (files p) := by
  rcases h with rfl | ⟨base, i, hb, rfl⟩
  · rfl
  · rw [take_slice, surplus_pwrite]
    exact surplus_base ho hs hne hb

/-- Every stage of writing a chunk extends the file. -/
theorem extends_stage (ho : o.Smooth) (hs : fileSize.toNat = x.file.length)
    (hne : 0 < x.file.length) {c : Option Bytes}
    (h : Stage o files p fileSize off (slice x.file off n) c) : x.Extends (files p) c := by
  rcases h with rfl | ⟨base, i, hb, rfl⟩
  · exact extends_refl x _
  · rw [take_slice]
    exact (extends_base ho hs hne hb).trans (extends_pwrite base off _)

end

/-- The whole file is there once every chunk is, with what was beyond. -/
theorem eq_of_all_stored {c : Option Bytes} (hcs : 0 < x.chunkSize) (htot : 0 < x.totalChunks)
    (h : ∀ ci, ci < x.totalChunks → x.ChunkStored c ci) : c = some (x.file ++ x.surplus c) := by
  obtain ⟨g, rfl, -⟩ := h 0 htot
  congr 1
  refine AgreeOn.eq_append fun q _ hq => ?_
  -- position `q` lies in chunk `q / chunkSize`
  have hlen := x.length_le hcs
  have hlt : q / x.chunkSize < x.totalChunks := by
    rw [Nat.div_lt_iff_lt_mul hcs]; omega
  obtain ⟨g', hg', ha⟩ := h _ hlt
  cases hg'
  have h1 : q / x.chunkSize * x.chunkSize ≤ q := Nat.div_mul_le_self q _
  have h2 : q < (q / x.chunkSize + 1) * x.chunkSize := by
    have := Nat.lt_div_mul_add hcs (a := q)
    rw [Nat.add_mul, Nat.one_mul]; omega
  exact ha q h1 (by rw [chunkEnd]; omega)

/-! ## Slots -/

/-- The list has the slots of chunk `ci`, and the valid ones hold its packets. -/
structure SlotsOk (x : Transfer) (ci : Nat) (l : PacketList) : Prop where
  wf : l.Wf
  total : l.totalPackets.toNat = x.numPackets ci
  data : ∀ pi node, l.index[pi]? = some node → node.ok = true → node.data = x.packetData ci pi

theorem slotsOk_init {n : UInt32} (h : n.toNat = x.numPackets ci) :
    x.SlotsOk ci (PacketList.init {} n) where
  wf := PacketList.wf_init _ _
  total := h
  data pi node hn hok := by
    have hmem := List.mem_of_getElem? hn
    obtain ⟨i, -, rfl⟩ := List.mem_map.mp hmem
    cases hok

/-- Storing a packet that, if it is valid, is the one of the source file for its slot. -/
theorem SlotsOk.insert_of {l : PacketList} (h : x.SlotsOk ci l) {p : UInt32} {data : Bytes} {v : Bool}
    (hd : v = true → p.toNat < l.totalPackets.toNat → data = x.packetData ci p.toNat) :
    x.SlotsOk ci (l.insert p data v).2 where
  wf := h.wf.insert _ _ _
  total := by rw [PacketList.insert_totalPackets]; exact h.total
  data q node hn hok := by
    by_cases hin : l.totalPackets.toNat ≤ p.toNat
    · rw [PacketList.insert_out hin] at hn
      exact h.data q node hn hok
    · obtain ⟨old, -, hidx, -⟩ := h.wf.insert_index _ (Nat.lt_of_not_le hin) data v
      rw [hidx, List.getElem?_set] at hn
      split at hn
      · next hq =>
        split at hn
        · cases hn
          rw [← hq]
          exact hd hok (Nat.lt_of_not_le hin)
        · cases hn
      · exact h.data q node hn hok

/-- Storing a packet of the source file. -/
theorem SlotsOk.insert {l : PacketList} (h : x.SlotsOk ci l) {p : UInt32} (hp : p.toNat = pi)
    (v : Bool) : x.SlotsOk ci (l.insert p (x.packetData ci pi) v).2 :=
  h.insert_of fun _ _ => by rw [hp]

/-- A complete list assembles to the chunk. -/
theorem SlotsOk.assemble {l : PacketList} (h : x.SlotsOk ci l) (hps : 0 < x.packetSize)
    (hc : l.isComplete = true) : l.assemble = slice x.file (ci * x.chunkSize) (x.chunkLen ci) := by
  obtain ⟨-, hall⟩ := h.wf.isComplete_iff.mp hc
  have hmap : l.index.map (·.data) = (List.range (x.numPackets ci)).map (x.packetData ci) := by
    apply List.ext_getElem
    · rw [List.length_map, List.length_map, List.length_range, h.wf.length, h.total]
    · intro q h1 h2
      rw [List.length_map] at h1
      simp only [List.getElem_map, List.getElem_range]
      exact h.data q _ (List.getElem?_eq_getElem h1) (hall _ (List.getElem_mem h1))
  have hfull := chunkLen_le (x := x) ci hps
  rw [PacketList.assemble, List.flatMap_def, hmap, ← List.flatMap_def, flatMap_packetData,
    Nat.min_eq_right hfull]

end Transfer

end Cfdp
