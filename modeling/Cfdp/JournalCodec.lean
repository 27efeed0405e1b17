import Cfdp.Lib.IStream
import Cfdp.PacketList

/-!
# The journal record

`JournalState` is the persisted state of a transfer. `encode` is what
`atomic_write` puts into the file, `readFromDisk` the loader with its stream
semantics: a short file overwrites part of the record and is reported by the
stream status at the end. What is written is read back (`readFromDisk_encode`).
-/

namespace Cfdp

open LittleEndian

structure JournalState where
  transactionId : UInt32
  fileSize : UInt64
  chunkSize : UInt32
  packetSize : UInt32
  totalChunks : UInt32
  checksumExpected : UInt32
  eofReceived : Bool
  filename : CharArray 256
  destPath : CharArray 512
  chunkDone : List Bool
  deriving DecidableEq

namespace JournalState

/-- A record of zeros. -/
def blank : JournalState where
  transactionId := 0
  fileSize := 0
  chunkSize := 0
  packetSize := 0
  totalChunks := 0
  checksumExpected := 0
  eofReceived := false
  filename := CharArray.ofBytes 256 []
  destPath := CharArray.ofBytes 512 []
  chunkDone := []

/-- `(ci < chunk_done.size()) && chunk_done[ci]`. -/
def isDone (s : JournalState) (ci : UInt32) : Bool := s.chunkDone.getD ci.toNat false

/-- `chunk_done[ci] = true`. -/
def markDone (s : JournalState) (ci : UInt32) : JournalState :=
  { s with chunkDone := s.chunkDone.set ci.toNat true }

def markEof (s : JournalState) : JournalState := { s with eofReceived := true }

/-- Ranges of chunks not yet marked done. -/
def computeMissingChunks (s : JournalState) : List ChunkNakRange :=
  (missingRanges (fun i => !s.isDone i) s.totalChunks).map fun r => ⟨r.1, r.2⟩

def boolByte (b : Bool) : UInt8 := if b then 1 else 0

/-- The bytes `atomic_write` writes. -/
def encode (s : JournalState) : Bytes :=
  le32 s.transactionId ++ (le64 s.fileSize ++ (le32 s.chunkSize ++ (le32 s.packetSize ++
    (le32 s.totalChunks ++ (le32 s.checksumExpected ++ ([boolByte s.eofReceived] ++
      (s.filename.toList ++ (s.destPath.toList ++ (le32 (UInt32.ofNat s.chunkDone.length) ++
        s.chunkDone.map boolByte)))))))))

/-- The loop reading `n` chunk flags. -/
def readFlags : Nat → IStream → List Bool × IStream
  | 0, f => ([], f)
  | n + 1, f =>
    let (v, f) := f.readInto 1 [0]
    let (rest, f) := readFlags n f
    ((rd8 v != 0) :: rest, f)

/-- A `bool` whose byte comes from a file. C++ gives bytes other than 0 and 1 no value: they are
taken for `odd`. -/
def boolOf (odd : Bool) (b : UInt8) : Bool := if b = 0 then false else if b = 1 then true else odd

/-- `read_from_disk`: whether the record was read, and the target record after. -/
def readFromDisk (odd : Bool) (file : Option Bytes) (s : JournalState) : Bool × JournalState :=
  match file with
  | none => (false, s)
  | some content =>
    let f : IStream := ⟨content, true⟩
    let (transactionId, f) := f.readInto 4 (le32 s.transactionId)
    let (fileSize, f) := f.readInto 8 (le64 s.fileSize)
    let (chunkSize, f) := f.readInto 4 (le32 s.chunkSize)
    let (packetSize, f) := f.readInto 4 (le32 s.packetSize)
    let (totalChunks, f) := f.readInto 4 (le32 s.totalChunks)
    let (checksumExpected, f) := f.readInto 4 (le32 s.checksumExpected)
    let (eofReceived, f) := f.readInto 1 [boolByte s.eofReceived]
    let (filename, f) := f.readInto 256 s.filename.toList
    let (destPath, f) := f.readInto 512 s.destPath.toList
    let (n, f) := f.readInto 4 (le32 0)
    let (chunkDone, f) := readFlags (rd32 n).toNat f
    (f.good,
      { transactionId := rd32 transactionId
        fileSize := rd64 fileSize
        chunkSize := rd32 chunkSize
        packetSize := rd32 packetSize
        totalChunks := rd32 totalChunks
        checksumExpected := rd32 checksumExpected
        eofReceived := boolOf odd (rd8 eofReceived)
        filename := CharArray.ofBytes 256 filename
        destPath := CharArray.ofBytes 512 destPath
        chunkDone })

/-- The journal a file holds, if it holds one. -/
def decode (file : Option Bytes) : Option JournalState :=
  match readFromDisk true file blank with
  | (true, s) => some s
  | (false, _) => none

/-! ## Round trip -/

theorem boolByte_ne_zero (b : Bool) : (rd8 [boolByte b] != 0) = b := by cases b <;> rfl

/-- The byte of a `bool` is read back as the `bool`. -/
theorem boolOf_boolByte (odd b : Bool) : boolOf odd (rd8 [boolByte b]) = b := by cases b <;> rfl

theorem readFlags_map (flags : List Bool) (r : Bytes) :
    readFlags flags.length ⟨flags.map boolByte ++ r, true⟩ = (flags, ⟨r, true⟩) := by
  induction flags with
  | nil => rfl
  | cons b flags ih =>
    have h := IStream.readInto_append (n := 1) (b := [boolByte b]) (c := [0]) rfl rfl
      (flags.map boolByte ++ r)
    simp only [List.singleton_append] at h
    simp only [List.length_cons, readFlags, List.map_cons, List.cons_append, h, ih, boolByte_ne_zero]

/-- **A journal written is read back**, whatever was in the target record and whatever follows. -/
theorem readFromDisk_encode_append (odd : Bool) (s s₀ : JournalState) (h : s.chunkDone.length < 2 ^ 32)
    (r : Bytes) : readFromDisk odd (some (s.encode ++ r)) s₀ = (true, s) := by
  have h32 (x y : UInt32) (r : Bytes) : IStream.readInto 4 (le32 y) ⟨le32 x ++ r, true⟩ =
      (le32 x, ⟨r, true⟩) := IStream.readInto_append (length_le32 x) (length_le32 y) r
  have h64 (x y : UInt64) (r : Bytes) : IStream.readInto 8 (le64 y) ⟨le64 x ++ r, true⟩ =
      (le64 x, ⟨r, true⟩) := IStream.readInto_append (length_le64 x) (length_le64 y) r
  have h1 (b c : Bool) (r : Bytes) : IStream.readInto 1 [boolByte b] ⟨[boolByte c] ++ r, true⟩ =
      ([boolByte c], ⟨r, true⟩) := IStream.readInto_append (n := 1) rfl rfl r
  have hv {n : Nat} (a b : CharArray n) (r : Bytes) :
      IStream.readInto n b.toList ⟨a.toList ++ r, true⟩ = (a.toList, ⟨r, true⟩) :=
    IStream.readInto_append a.2 b.2 r
  have hn : (UInt32.ofNat s.chunkDone.length).toNat = s.chunkDone.length := by
    rw [UInt32.toNat_ofNat', Nat.mod_eq_of_lt h]
  have harr {n : Nat} (a : CharArray n) : CharArray.ofBytes n a.toList = a := by
    simpa using CharArray.ofBytes_self a []
  simp only [readFromDisk, encode, List.append_assoc, h32, h64, h1, hv, rd32_le32', rd64_le64', hn,
    readFlags_map, harr, boolOf_boolByte]

theorem readFromDisk_encode (odd : Bool) (s s₀ : JournalState) (h : s.chunkDone.length < 2 ^ 32) :
    readFromDisk odd (some s.encode) s₀ = (true, s) := by
  have := readFromDisk_encode_append odd s s₀ h []
  rwa [List.append_nil] at this

theorem decode_encode (s : JournalState) (h : s.chunkDone.length < 2 ^ 32) :
    decode (some s.encode) = some s := by
  rw [decode, readFromDisk_encode true s _ h]

@[simp] theorem decode_none : decode none = none := rfl

/-! ## Chunk marks -/

@[simp] theorem length_markDone (s : JournalState) (ci : UInt32) :
    (s.markDone ci).chunkDone.length = s.chunkDone.length := by simp [markDone]

theorem isDone_markDone (s : JournalState) (ci cj : UInt32) (h : ci.toNat < s.chunkDone.length) :
    (s.markDone ci).isDone cj = (decide (cj = ci) || s.isDone cj) := by
  simp only [isDone, markDone, List.getD_eq_getElem?_getD, List.getElem?_set, h, if_true]
  by_cases hc : cj = ci
  · subst hc; simp
  · have hn : ¬ ci.toNat = cj.toNat := fun e => hc (UInt32.toNat_inj.mp e).symm
    simp [hc, hn]

/-- The missing ranges are empty exactly when every chunk is done. -/
theorem computeMissingChunks_eq_nil (s : JournalState) :
    s.computeMissingChunks = [] ↔ ∀ ci, ci < s.totalChunks → s.isDone ci = true := by
  have hr := Runs.isRuns_scan (fun i => !s.isDone (UInt32.ofNat i)) s.totalChunks.toNat
  rw [computeMissingChunks, List.map_eq_nil_iff, missingRanges_eq, List.map_eq_nil_iff,
    hr.eq_nil_iff]
  constructor
  · intro h ci hci
    have := h ci.toNat (UInt32.lt_iff_toNat_lt.mp hci)
    rw [UInt32.ofNat_toNat] at this
    simpa using this
  · intro h i hi
    have hb := s.totalChunks.toNat_lt
    have hi' : (UInt32.ofNat i).toNat = i := by rw [UInt32.toNat_ofNat', Nat.mod_eq_of_lt (by omega)]
    rw [h _ (UInt32.lt_iff_toNat_lt.mpr (by rw [hi']; exact hi))]; rfl

/-- The first missing range starts at the least chunk that is not done. -/
theorem computeMissingChunks_head {s : JournalState} {r : ChunkNakRange} {rs : List ChunkNakRange}
    (h : s.computeMissingChunks = r :: rs) :
    r.firstChunk < s.totalChunks ∧ s.isDone r.firstChunk = false ∧
      ∀ ci, ci < r.firstChunk → s.isDone ci = true := by
  have hr := Runs.isRuns_scan (fun i => !s.isDone (UInt32.ofNat i)) s.totalChunks.toNat
  unfold computeMissingChunks at h
  rw [missingRanges_eq] at h
  generalize Runs.scan (fun i => !s.isDone (UInt32.ofNat i)) s.totalChunks.toNat = runs at h hr
  cases runs with
  | nil => cases h
  | cons q qs =>
    simp only [List.map_cons, List.cons.injEq] at h
    obtain ⟨rfl, -⟩ := h
    obtain ⟨h1, h2, h3⟩ := hr.head_least rfl
    have hb := s.totalChunks.toNat_lt
    have hq : (UInt32.ofNat q.1).toNat = q.1 := by
      rw [UInt32.toNat_ofNat', Nat.mod_eq_of_lt (by omega)]
    refine ⟨UInt32.lt_iff_toNat_lt.mpr (by simp only [range32, hq]; exact h1),
      by simpa [range32] using h2, ?_⟩
    intro ci hci
    have hci' : ci.toNat < q.1 := by
      have := UInt32.lt_iff_toNat_lt.mp hci
      simpa only [range32, hq] using this
    have := h3 ci.toNat hci'
    rw [UInt32.ofNat_toNat] at this
    simpa using this

/-- Every missing range starts at a chunk that is not done. -/
theorem open_of_mem_missing {s : JournalState} {r : ChunkNakRange} (h : r ∈ s.computeMissingChunks) :
    r.firstChunk < s.totalChunks ∧ s.isDone r.firstChunk = false := by
  have hr := Runs.isRuns_scan (fun i => !s.isDone (UInt32.ofNat i)) s.totalChunks.toNat
  unfold computeMissingChunks at h
  rw [missingRanges_eq] at h
  simp only [List.mem_map] at h
  obtain ⟨_, ⟨q, hq, rfl⟩, rfl⟩ := h
  obtain ⟨h1, h2⟩ := (hr.covered q.1).mp ⟨q, hq, Nat.le_refl _, hr.proper q hq⟩
  have hb := s.totalChunks.toNat_lt
  have hq' : (UInt32.ofNat q.1).toNat = q.1 := by rw [UInt32.toNat_ofNat', Nat.mod_eq_of_lt (by omega)]
  exact ⟨UInt32.lt_iff_toNat_lt.mpr (by simp only [range32, hq']; exact h1), by simpa [range32] using h2⟩

/-- Every chunk that is not done lies in a missing range. -/
theorem mem_missing_of_open {s : JournalState} {ci : UInt32} (hlt : ci.toNat < s.totalChunks.toNat)
    (hopen : s.isDone ci = false) :
    ∃ cr ∈ s.computeMissingChunks, cr.firstChunk.toNat ≤ ci.toNat := by
  have hr := Runs.isRuns_scan (fun i => !s.isDone (UInt32.ofNat i)) s.totalChunks.toNat
  obtain ⟨q, hq, h1, -⟩ := (hr.covered ci.toNat).mpr ⟨hlt, by simp [hopen]⟩
  have hq' : (UInt32.ofNat q.1).toNat ≤ q.1 := by rw [UInt32.toNat_ofNat']; exact Nat.mod_le _ _
  refine ⟨⟨(range32 q).1, (range32 q).2⟩, ?_, Nat.le_trans hq' h1⟩
  unfold computeMissingChunks
  rw [missingRanges_eq]
  exact List.mem_map.mpr ⟨_, List.mem_map.mpr ⟨q, hq, rfl⟩, rfl⟩

end JournalState

end Cfdp
