import Cfdp.Journal

/-!
# What a journal file holds

The loader accepts a file exactly if it is long enough for the flags it declares
(`Whole`), and then reads the record at fixed offsets (`ofBytes`): what was in the
target record does not matter, nor what follows the flags. A file cut anywhere is
rejected.
-/

namespace Cfdp

open LittleEndian Crash Prog

namespace JournalState

/-- The number of flags a journal file declares. -/
def flagCount (c : Bytes) : Nat := (rd32 (c.drop 797)).toNat

/-- The file holds the fixed fields and the flags it declares. -/
def Whole (c : Bytes) : Prop := 801 + flagCount c ≤ c.length

instance (c : Bytes) : Decidable (Whole c) := inferInstanceAs (Decidable (_ ≤ _))

/-- The byte of `eof_received`. -/
def eofByte (c : Bytes) : UInt8 := rd8 (c.drop 28)

/-- The record in a file. -/
def ofBytes (odd : Bool) (c : Bytes) : JournalState where
  transactionId := rd32 c
  fileSize := rd64 (c.drop 4)
  chunkSize := rd32 (c.drop 12)
  packetSize := rd32 (c.drop 16)
  totalChunks := rd32 (c.drop 20)
  checksumExpected := rd32 (c.drop 24)
  eofReceived := boolOf odd (eofByte c)
  filename := CharArray.ofBytes 256 (c.drop 29)
  destPath := CharArray.ofBytes 512 (c.drop 285)
  chunkDone := ((c.drop 801).take (flagCount c)).map (· != 0)

/-! ## The loader -/

theorem readFlags_full {n : Nat} {bs : Bytes} (h : n ≤ bs.length) :
    readFlags n ⟨bs, true⟩ = ((bs.take n).map (· != 0), ⟨bs.drop n, true⟩) := by
  induction n generalizing bs with
  | zero => rfl
  | succ n ih =>
    cases bs with
    | nil => exact absurd h (by simp)
    | cons b bs =>
      have hr : IStream.readInto 1 [0] ⟨b :: bs, true⟩ = ([b], ⟨bs, true⟩) :=
        IStream.readInto_full (n := 1) rfl (by simp)
      simp only [readFlags, hr, @ih bs (by simpa using h)]
      rfl

theorem short_readFlags {f : IStream} {n : Nat} (h : f.Short n) : (readFlags n f).2.Short 0 := by
  induction n generalizing f with
  | zero => exact h
  | succ n ih => exact ih (IStream.Short.readInto (n := 1) (h.mono (by omega)) [0])

theorem ofBytes_take {n : Nat} (bs : Bytes) (h : n ≤ bs.length) :
    CharArray.ofBytes n (bs.take n) = CharArray.ofBytes n bs := by
  apply Subtype.ext
  show ((bs.take n) ++ List.replicate n 0).take n = (bs ++ List.replicate n 0).take n
  rw [List.take_append_of_le_length (by rw [List.length_take]; omega), List.take_take, Nat.min_self,
    List.take_append_of_le_length h]

/-- The fixed fields, read from a file that has them. -/
theorem readFromDisk_head {c : Bytes} (h : 801 ≤ c.length) (odd : Bool) (s₀ : JournalState) :
    readFromDisk odd (some c) s₀ = ((readFlags (flagCount c) ⟨c.drop 801, true⟩).2.good,
      { ofBytes odd c with chunkDone := (readFlags (flagCount c) ⟨c.drop 801, true⟩).1 }) := by
  have hl (k : Nat) : (c.drop k).length = c.length - k := List.length_drop
  have hread (n k : Nat) (hk : k + n ≤ c.length) (cur : Bytes) (hc : cur.length = n) :
      IStream.readInto n cur ⟨c.drop k, true⟩ = ((c.drop k).take n, ⟨c.drop (k + n), true⟩) := by
    rw [IStream.readInto_full hc (by rw [hl]; omega), List.drop_drop]
  have h32 (k : Nat) (hk : k + 4 ≤ c.length) (x : UInt32) := hread 4 k hk (le32 x) (length_le32 x)
  have h0 := h32 0 (by omega) s₀.transactionId
  have h4 := hread 8 4 (by omega) (le64 s₀.fileSize) (length_le64 _)
  have h28 := hread 1 28 (by omega) [boolByte s₀.eofReceived] rfl
  have h29 := hread 256 29 (by omega) s₀.filename.toList s₀.filename.2
  have h285 := hread 512 285 (by omega) s₀.destPath.toList s₀.destPath.2
  have h8 : rd8 ((c.drop 28).take 1) = eofByte c := by
    unfold eofByte
    cases c.drop 28 <;> rfl
  rw [List.drop_zero] at h0
  simp only [readFromDisk, h0, h4, h28, h32 12 (by omega), h32 16 (by omega), h32 20 (by omega),
    h32 24 (by omega), h29, h285, h32 797 (by omega), Nat.zero_add, Nat.reduceAdd,
      rd32_take, rd64_take,
    h8, ofBytes_take _ (show 256 ≤ (c.drop 29).length by rw [hl]; omega),
    ofBytes_take _ (show 512 ≤ (c.drop 285).length by rw [hl]; omega)]
  rfl

/-- **A whole file is loaded**, whatever was in the target record. -/
theorem readFromDisk_whole {c : Bytes} (h : Whole c) (odd : Bool) (s₀ : JournalState) :
    readFromDisk odd (some c) s₀ = (true, ofBytes odd c) := by
  unfold Whole at h
  have hl : (c.drop 801).length = c.length - 801 := List.length_drop
  rw [readFromDisk_head (by omega), readFlags_full (by omega)]
  rfl

/-- **Any other file is rejected.** -/
theorem readFromDisk_short {c : Bytes} (h : ¬ Whole c) (odd : Bool) (s₀ : JournalState) :
    (readFromDisk odd (some c) s₀).1 = false := by
  unfold Whole at h
  by_cases hc : 801 ≤ c.length
  · have hl : (c.drop 801).length = c.length - 801 := List.length_drop
    rw [readFromDisk_head hc]
    exact (short_readFlags (n := flagCount c) fun _ => by simp only [hl]; omega).failed
  · -- the stream fails before the flags, whatever their number
    have h0 : IStream.Short ⟨c, true⟩ (4 + (8 + (4 + (4 + (4 + (4 + (1 + (256 + (512 + (4 + 0)))))))))) :=
      fun _ => by simp only; omega
    have h6 := (((((h0.readInto (le32 s₀.transactionId)).readInto (le64 s₀.fileSize)).readInto
      (le32 s₀.chunkSize)).readInto (le32 s₀.packetSize)).readInto (le32 s₀.totalChunks)).readInto
      (le32 s₀.checksumExpected)
    have h10 := (((h6.readInto [boolByte s₀.eofReceived]).readInto s₀.filename.toList).readInto
      s₀.destPath.toList).readInto (le32 0)
    unfold readFromDisk
    exact (short_readFlags (h10.mono (Nat.zero_le _))).failed

/-! ## Written files -/

theorem length_encode (s : JournalState) : s.encode.length = 801 + s.chunkDone.length := by
  have h1 : s.filename.toList.length = 256 := s.filename.2
  have h2 : s.destPath.toList.length = 512 := s.destPath.2
  simp only [encode, List.length_append, length_le32, length_le64, h1, h2, List.length_map,
    List.length_singleton]
  omega

theorem drop_encode (s : JournalState) : s.encode.drop 797 =
    le32 (UInt32.ofNat s.chunkDone.length) ++ s.chunkDone.map boolByte := by
  have h1 : s.filename.toList.length = 256 := s.filename.2
  have h2 : s.destPath.toList.length = 512 := s.destPath.2
  have hv {n : Nat} (a : CharArray n) (k : Nat) (r : Bytes) :
      (a.toList ++ r).drop (k + n) = r.drop k := by
    have hd : (a.toList ++ r).drop n = r := List.drop_left' a.2
    rw [Nat.add_comm, ← List.drop_drop, hd]
  rw [encode, show 797 = 768 + 1 + 4 + 4 + 4 + 4 + 8 + 4 from rfl, drop_le32, drop_le64, drop_le32,
    drop_le32, drop_le32, drop_le32, List.singleton_append, List.drop_succ_cons,
    show 768 = 0 + 512 + 256 from rfl, hv, hv, List.drop_zero]

/-- A written file that is cut is not whole. -/
theorem not_whole_cut {s : JournalState} (h : s.chunkDone.length < 2 ^ 32) {c : Bytes}
    (hp : c <+: s.encode) (hne : c ≠ s.encode) : ¬ Whole c := by
  unfold Whole
  intro hw
  have hlt : c.length < s.encode.length :=
    Nat.lt_of_le_of_ne hp.length_le fun he => hne (hp.eq_of_length he)
  have hcount : flagCount c = s.chunkDone.length := by
    rw [flagCount, List.prefix_iff_eq_take.mp hp, rd32_drop_take (by omega), drop_encode, rd32_le32,
      UInt32.toNat_ofNat', Nat.mod_eq_of_lt h]
  rw [length_encode] at hlt
  omega

/-- What a successful write leaves in the journal file. -/
theorem atomicWrite_stateBin {o : Oracle} {u : JournalUpdate} {s : JournalState} {w : World}
    (h : (Journal.atomicWrite o u s w).result = .ok true) :
    (Journal.atomicWrite o u s w).final.disk.stateBin = some s.encode := by
  have hw : wp (Journal.atomicWrite o u s) (fun _ => True)
      (fun b w' => b = true → w'.disk.stateBin = some s.encode) (fun _ _ => True) w :=
    Journal.wp_atomicWrite (fun _ => trivial) (fun _ _ hb => by cases hb) ⟨trivial, fun _ => rfl⟩
  exact hw.ok h rfl

/-- A write of which no call fails succeeds. -/
theorem atomicWrite_ok {o : Oracle} (ho : o.Writes) (u : JournalUpdate) (s : JournalState) (w : World) :
    (Journal.atomicWrite o u s w).result = .ok true := by
  have hw : wp (Journal.atomicWrite o u s) (fun _ => True) (fun b _ => b = true)
      (fun _ _ => False) w :=
    Journal.wp_atomicWrite (fun _ => trivial) (fun hno => absurd ho hno) ⟨trivial, rfl⟩
  obtain ⟨b, hb, rfl⟩ := hw.returns
  exact hb

/-- **The journal codec**: a write of which no call fails succeeds, what it leaves is read back, on
its own or followed by anything, and a file cut short is rejected; so no encoding is a prefix of
another. -/
theorem journal_codec (s : JournalState) (h : s.chunkDone.length < 2 ^ 32) :
    (∀ o u w, (Journal.atomicWrite o u s w).result = .ok true →
      (Journal.atomicWrite o u s w).final.disk.stateBin = some s.encode) ∧
    (∀ o : Oracle, o.Writes → ∀ u w, (Journal.atomicWrite o u s w).result = .ok true) ∧
    (∀ odd s₀, readFromDisk odd (some s.encode) s₀ = (true, s)) ∧
    (∀ odd c s₀, c <+: s.encode → c ≠ s.encode → (readFromDisk odd (some c) s₀).1 = false) ∧
    (∀ odd r s₀, readFromDisk odd (some (s.encode ++ r)) s₀ = (true, s)) ∧
    ∀ s', s'.encode <+: s.encode → s' = s := by
  refine ⟨fun _ _ _ => atomicWrite_stateBin, fun o ho u w => atomicWrite_ok ho u s w,
    fun odd s₀ => readFromDisk_encode odd s s₀ h,
    fun odd c s₀ hp hne => readFromDisk_short (not_whole_cut h hp hne) odd s₀,
    fun odd r s₀ => readFromDisk_encode_append odd s s₀ h r, fun s' hp => ?_⟩
  have hlen := hp.length_le
  rw [length_encode, length_encode] at hlen
  have hs' := readFromDisk_encode true s' blank (by omega)
  obtain ⟨r, hr⟩ := hp
  have hs := readFromDisk_encode true s blank h
  rw [← hr, readFromDisk_encode_append true s' blank (by omega)] at hs
  exact congrArg Prod.snd hs

/-- The record of a file of three chunks, the first one done. -/
def threeChunks : JournalState :=
  { blank with
    transactionId := 7
    fileSize := 5
    chunkSize := 2
    packetSize := 1
    totalChunks := 3
    chunkDone := [true, false, false] }

/-- A receiver on an empty disk writes it. -/
def threeChunksWritten : Outcome World RuntimeError Bool :=
  Journal.atomicWrite ⟨fun _ => false, 0, [], true⟩ (.create threeChunks) threeChunks
    ⟨.construct blank, ⟨none, none, fun _ => none⟩, []⟩

/-- It is read back, also before another byte, but not once its last flag is cut off. -/
theorem journal_codec_small : threeChunksWritten.result = .ok true ∧
    readFromDisk false threeChunksWritten.final.disk.stateBin blank = (true, threeChunks) ∧
    readFromDisk false (some (threeChunks.encode ++ [7])) blank = (true, threeChunks) ∧
    (readFromDisk false (some threeChunks.encode.dropLast) blank).1 = false := by
  obtain ⟨hleft, hok, hread, hcut, hmore, -⟩ := journal_codec threeChunks (by decide)
  have hw : threeChunksWritten.result = .ok true := hok _ ⟨rfl, rfl, rfl⟩ _ _
  refine ⟨hw, ?_, hmore false [7] blank, hcut false _ blank (List.dropLast_prefix _) ?_⟩
  · unfold threeChunksWritten
    rw [hleft _ _ _ hw]
    exact hread false blank
  · intro he
    have hlen := congrArg List.length he
    rw [List.length_dropLast, length_encode] at hlen
    omega

end JournalState

end Cfdp
