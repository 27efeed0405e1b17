import Cfdp.Lib.IStream

/-!
# Checksums

`Crc.crc8` is the receiver's shift register over `uint8_t`, `Crc.crc8Py` the
sender's over unbounded integers masked with `0xFF`; they agree. One changed
byte changes the CRC-8, because a step of the register is invertible.

CRC-32 is zlib's: `crc32 c bs` continues from the value `c`. The receiver feeds
it a file by blocks of 4096 bytes, driven by the stream state; the sender by
blocks of 65536. Both loops end with every byte fed once (`crc32File_blocks`).
-/

namespace Cfdp.Crc

/-- One shift of the `uint8_t` register. -/
def shift8 (crc : UInt8) : UInt8 :=
  if crc &&& 0x80 ≠ 0 then (crc <<< 1) ^^^ 0x07 else crc <<< 1

def shifts8 : Nat → UInt8 → UInt8
  | 0, crc => crc
  | n + 1, crc => shifts8 n (shift8 crc)

def crc8 (data : Bytes) : UInt8 := data.foldl (fun crc b => shifts8 8 (crc ^^^ b)) 0

/-- One shift of the sender's register. -/
def shift8Py (crc : Nat) : Nat :=
  if crc &&& 0x80 ≠ 0 then ((crc <<< 1) ^^^ 0x07) &&& 0xFF else (crc <<< 1) &&& 0xFF

def shifts8Py : Nat → Nat → Nat
  | 0, crc => crc
  | n + 1, crc => shifts8Py n (shift8Py crc)

/-- `crc8` of `sender.py`. -/
def crc8Py (data : Bytes) : Nat := data.foldl (fun crc b => shifts8Py 8 (crc ^^^ b.toNat)) 0

/-! ## The register step is invertible -/

/-- The shift undone. -/
def unshift8 (crc : UInt8) : UInt8 :=
  if crc &&& 1 ≠ 0 then ((crc ^^^ 0x07) >>> 1) ||| 0x80 else crc >>> 1

theorem forall_uint8 {P : UInt8 → Prop} (h : ∀ n, n < 256 → P (UInt8.ofNat n)) (c : UInt8) : P c := by
  have := h c.toNat c.toNat_lt
  rwa [UInt8.ofNat_toNat] at this

theorem unshift8_shift8 (c : UInt8) : unshift8 (shift8 c) = c :=
  forall_uint8 (P := fun c => unshift8 (shift8 c) = c) (by decide +kernel) c

theorem shift8_inj {a b : UInt8} (h : shift8 a = shift8 b) : a = b := by
  rw [← unshift8_shift8 a, h, unshift8_shift8]

theorem shifts8_inj {n : Nat} {a b : UInt8} (h : shifts8 n a = shifts8 n b) : a = b := by
  induction n generalizing a b with
  | zero => exact h
  | succ n ih => exact shift8_inj (ih h)

theorem foldl_inj (data : Bytes) {a b : UInt8}
    (h : data.foldl (fun crc b => shifts8 8 (crc ^^^ b)) a =
      data.foldl (fun crc b => shifts8 8 (crc ^^^ b)) b) : a = b := by
  induction data generalizing a b with
  | nil => exact h
  | cons x data ih =>
    have := shifts8_inj (ih h)
    simpa using this

/-- **One changed byte changes the CRC-8.** -/
theorem crc8_ne_of_byte {x y : UInt8} (hxy : x ≠ y) (pre post : Bytes) :
    crc8 (pre ++ x :: post) ≠ crc8 (pre ++ y :: post) := by
  intro h
  simp only [crc8, List.foldl_append, List.foldl_cons] at h
  have := shifts8_inj (foldl_inj post h)
  exact hxy (by simpa using this)

theorem crc8_set_ne {data : Bytes} {i : Nat} {b : UInt8} (hi : i < data.length) (hb : b ≠ data[i]) :
    crc8 (data.set i b) ≠ crc8 data := by
  have h := crc8_ne_of_byte hb (data.take i) (data.drop (i + 1))
  rw [← List.drop_eq_getElem_cons hi, List.take_append_drop] at h
  rwa [List.set_eq_take_append_cons_drop, if_pos hi]

/-! ## Sender and receiver compute the same CRC-8 -/

theorem shift8Py_toNat (c : UInt8) : shift8Py c.toNat = (shift8 c).toNat :=
  forall_uint8 (P := fun c => shift8Py c.toNat = (shift8 c).toNat) (by decide +kernel) c

theorem shifts8Py_toNat (n : Nat) (c : UInt8) : shifts8Py n c.toNat = (shifts8 n c).toNat := by
  induction n generalizing c with
  | zero => rfl
  | succ n ih => rw [shifts8Py, shift8Py_toNat, ih, shifts8]

theorem crc8Py_eq (data : Bytes) : crc8Py data = (crc8 data).toNat := by
  have h : ∀ c : UInt8, data.foldl (fun crc b => shifts8Py 8 (crc ^^^ b.toNat)) c.toNat =
      (data.foldl (fun crc b => shifts8 8 (crc ^^^ b)) c).toNat := by
    induction data with
    | nil => intro c; rfl
    | cons b data ih =>
      intro c
      rw [List.foldl_cons, List.foldl_cons, ← UInt8.toNat_xor, shifts8Py_toNat, ih]
  exact h 0

/-! ## CRC-32 of a file -/

section

variable (crc32 : UInt32 → Bytes → UInt32)

/-- `while (f.read(buf, sizeof(buf)) || f.gcount() > 0)`, at most `fuel` rounds. -/
def readLoop (block : Nat) : Nat → UInt32 → IStream → UInt32
  | 0, crc, _ => crc
  | fuel + 1, crc, f =>
    if (f.read block).2.good ∨ (f.read block).1.length > 0 then
      readLoop block fuel (crc32 crc (f.read block).1) (f.read block).2
    else crc

/-- `crc32_file` of the receiver on a file that opens. `crc32(0, nullptr, 0)` is 0. -/
def crc32File (content : Bytes) : UInt32 :=
  readLoop crc32 4096 (content.length + 1) 0 ⟨content, true⟩

/-- `while buf := f.read(block)`, at most `fuel` rounds. -/
def readLoopPy (block : Nat) : Nat → UInt32 → Bytes → UInt32
  | 0, crc, _ => crc
  | fuel + 1, crc, rest =>
    if rest.take block = [] then crc
    else readLoopPy block fuel (crc32 crc (rest.take block)) (rest.drop block)

/-- `crc32_file` of the sender. -/
def crc32FilePy (content : Bytes) : UInt32 := readLoopPy crc32 65536 (content.length + 1) 0 content

/-- zlib: continuing the checksum of `a` over `b` is the checksum of `a ++ b`. -/
def Composes : Prop := ∀ c a b, crc32 (crc32 c a) b = crc32 c (a ++ b)

/-- One shift of the reflected CRC-32 register. -/
def shift32 (crc : UInt32) : UInt32 :=
  if crc &&& 1 ≠ 0 then (crc >>> 1) ^^^ 0xEDB88320 else crc >>> 1

def shifts32 : Nat → UInt32 → UInt32
  | 0, crc => crc
  | n + 1, crc => shifts32 n (shift32 crc)

/-- `crc32` of zlib. -/
def zlibCrc32 (crc : UInt32) (data : Bytes) : UInt32 :=
  data.foldl (fun crc b => shifts32 8 (crc ^^^ b.toUInt32)) (crc ^^^ 0xFFFFFFFF) ^^^ 0xFFFFFFFF

theorem composes_zlibCrc32 : Composes zlibCrc32 := by
  intro c a b
  rw [zlibCrc32, zlibCrc32, zlibCrc32, UInt32.xor_assoc, UInt32.xor_self, UInt32.xor_zero,
    List.foldl_append]

variable {crc32}

/-- What a round of the receiver's loop is given. -/
def nextBlock (block : Nat) (f : IStream) : Option (Bytes × IStream) :=
  if (f.read block).2.good ∨ (f.read block).1.length > 0 then some (f.read block) else none

/-- What a round of the sender's loop is given. -/
def nextBlockPy (block : Nat) (rest : Bytes) : Option (Bytes × Bytes) :=
  if rest.take block = [] then none else some (rest.take block, rest.drop block)

/-- A short read fails the stream and is fed; the read after it delivers nothing. -/
theorem drains_nextBlock {block : Nat} (hb : 0 < block) : Drains (nextBlock block) IStream.left where
  stop := by
    intro f h
    unfold nextBlock at h
    split at h
    · cases h
    · next hend =>
      obtain ⟨hfail, hnone⟩ := not_or.mp hend
      rw [← f.read_append_left block, IStream.left, if_neg hfail, List.append_nil]
      exact List.length_eq_zero_iff.mp (by omega)
  round := by
    intro f b f' h
    unfold nextBlock at h
    split at h
    · next hgo =>
      have hread := Option.some.inj h
      have hleft := f.read_append_left block
      have hpos : 0 < (f.read block).1.length := by
        rcases hgo with hgood | hpos
        · rwa [IStream.length_read_of_good hgood]
        · exact hpos
      rw [hread] at hleft hpos
      exact ⟨List.ne_nil_of_length_pos hpos, hleft.symm⟩
    · cases h

theorem drains_nextBlockPy {block : Nat} (hb : 0 < block) : Drains (nextBlockPy block) id where
  stop := by
    intro rest h
    unfold nextBlockPy at h
    split at h
    · next hend =>
      rcases List.take_eq_nil_iff.mp hend with h0 | hnil
      · omega
      · exact hnil
    · cases h
  round := by
    intro rest b rest' h
    unfold nextBlockPy at h
    split at h
    · cases h
    · next hgo =>
      cases h
      exact ⟨hgo, (List.take_append_drop block rest).symm⟩

/-- The loop feeds its blocks one after the other. -/
theorem readLoop_of_feeds {block fuel : Nat} {c : UInt32} {f : IStream} {bs : List Bytes}
    (h : Feeds (nextBlock block) f bs) (hfuel : bs.length < fuel) :
    readLoop crc32 block fuel c f = bs.foldl crc32 c := by
  induction h generalizing fuel c with
  | stop h =>
    obtain ⟨fuel, rfl⟩ := Nat.exists_eq_add_one_of_ne_zero (Nat.ne_of_gt hfuel)
    unfold nextBlock at h
    split at h
    · cases h
    · next hend => rw [readLoop, if_neg hend, List.foldl_nil]
  | round h _ ih =>
    obtain ⟨fuel, rfl⟩ := Nat.exists_eq_add_one_of_ne_zero (Nat.ne_of_gt (Nat.zero_lt_of_lt hfuel))
    unfold nextBlock at h
    split at h
    · next hgo =>
      have hread := Option.some.inj h
      unfold readLoop
      rw [if_pos hgo, hread, ih (Nat.lt_of_succ_lt_succ hfuel), List.foldl_cons]
    · cases h

theorem readLoopPy_of_feeds {block fuel : Nat} {c : UInt32} {rest : Bytes} {bs : List Bytes}
    (h : Feeds (nextBlockPy block) rest bs) (hfuel : bs.length < fuel) :
    readLoopPy crc32 block fuel c rest = bs.foldl crc32 c := by
  induction h generalizing fuel c with
  | stop h =>
    obtain ⟨fuel, rfl⟩ := Nat.exists_eq_add_one_of_ne_zero (Nat.ne_of_gt hfuel)
    unfold nextBlockPy at h
    split at h
    · next hend => rw [readLoopPy, if_pos hend, List.foldl_nil]
    · cases h
  | round h _ ih =>
    obtain ⟨fuel, rfl⟩ := Nat.exists_eq_add_one_of_ne_zero (Nat.ne_of_gt (Nat.zero_lt_of_lt hfuel))
    unfold nextBlockPy at h
    split at h
    · cases h
    · next hgo =>
      cases h
      unfold readLoopPy
      rw [if_neg hgo, ih (Nat.lt_of_succ_lt_succ hfuel), List.foldl_cons]

/-- Blocks fed one after the other are their concatenation fed at once. -/
theorem Composes.foldl (hc : Composes crc32) {bs : List Bytes} (hne : bs ≠ []) (c : UInt32) :
    bs.foldl crc32 c = crc32 c bs.flatten := by
  induction bs generalizing c with
  | nil => exact absurd rfl hne
  | cons b bs ih =>
    rw [List.foldl_cons, List.flatten_cons, ← hc]
    by_cases hbs : bs = []
    · rw [hbs, List.foldl_nil, List.flatten_nil, hc, List.append_nil]
    · exact ih hbs _

theorem exists_crc32File_blocks (content : Bytes) :
    ∃ bs, Feeds (nextBlock 4096) ⟨content, true⟩ bs ∧ bs.flatten = content ∧
      ∀ crc32, crc32File crc32 content = bs.foldl crc32 0 := by
  have hdrains := drains_nextBlock (show 0 < 4096 by decide)
  obtain ⟨bs, hfeeds, hflat, hle⟩ := hdrains.feeds ⟨content, true⟩
  exact ⟨bs, hfeeds, hflat, fun crc32 => readLoop_of_feeds hfeeds (Nat.lt_succ_of_le hle)⟩

theorem exists_crc32FilePy_blocks (content : Bytes) :
    ∃ bs, Feeds (nextBlockPy 65536) content bs ∧ bs.flatten = content ∧
      ∀ crc32, crc32FilePy crc32 content = bs.foldl crc32 0 := by
  have hdrains := drains_nextBlockPy (show 0 < 65536 by decide)
  obtain ⟨bs, hfeeds, hflat, hle⟩ := hdrains.feeds content
  exact ⟨bs, hfeeds, hflat, fun crc32 => readLoopPy_of_feeds hfeeds (Nat.lt_succ_of_le hle)⟩

theorem foldl_of_flatten (hc : Composes crc32) {bs : List Bytes} {content : Bytes}
    (h : content ≠ [] ∨ crc32 0 [] = 0) (hflat : bs.flatten = content) :
    bs.foldl crc32 0 = crc32 0 content := by
  by_cases hbs : bs = []
  · subst hbs
    rw [List.flatten_nil] at hflat
    subst hflat
    rcases h with hne | h0
    · exact absurd rfl hne
    · rw [h0, List.foldl_nil]
  · rw [hc.foldl hbs, hflat]

/-- Both sides compute the CRC-32 of the whole content of a file that is not empty. -/
theorem crc32File_eq (hc : Composes crc32) {content : Bytes} (h : content ≠ []) :
    crc32File crc32 content = crc32 0 content := by
  obtain ⟨bs, -, hflat, hfold⟩ := exists_crc32File_blocks content
  rw [hfold, foldl_of_flatten hc (.inl h) hflat]

theorem crc32FilePy_eq (hc : Composes crc32) {content : Bytes} (h : content ≠ []) :
    crc32FilePy crc32 content = crc32 0 content := by
  obtain ⟨bs, -, hflat, hfold⟩ := exists_crc32FilePy_blocks content
  rw [hfold, foldl_of_flatten hc (.inl h) hflat]

/-- **The CRC-32 of a file does not depend on the block size.** For every content both loops
end, are given every byte once, and compute zlib's checksum of the whole content. -/
theorem crc32File_blocks (content : Bytes) :
    (∃ bs, Feeds (nextBlock 4096) ⟨content, true⟩ bs ∧ bs.flatten = content ∧
      ∀ crc32, crc32File crc32 content = bs.foldl crc32 0) ∧
    (∃ bs, Feeds (nextBlockPy 65536) content bs ∧ bs.flatten = content ∧
      ∀ crc32, crc32FilePy crc32 content = bs.foldl crc32 0) ∧
    ∀ crc32, Composes crc32 → crc32 0 [] = 0 →
      crc32File crc32 content = crc32 0 content ∧
      crc32File crc32 content = crc32FilePy crc32 content := by
  refine ⟨exists_crc32File_blocks content, exists_crc32FilePy_blocks content, ?_⟩
  intro crc32 hc h0
  obtain ⟨bs, -, hflat, hfold⟩ := exists_crc32File_blocks content
  obtain ⟨bs', -, hflat', hfold'⟩ := exists_crc32FilePy_blocks content
  rw [hfold, hfold', foldl_of_flatten hc (.inr h0) hflat, foldl_of_flatten hc (.inr h0) hflat']
  exact ⟨rfl, rfl⟩

/-- With zlib's function, for a file that ends with a full block of the receiver. -/
theorem crc32File_blocks_full :
    crc32File zlibCrc32 (List.replicate 8192 0x61) = zlibCrc32 0 (List.replicate 8192 0x61) ∧
      crc32File zlibCrc32 (List.replicate 8192 0x61) =
        crc32FilePy zlibCrc32 (List.replicate 8192 0x61) :=
  (crc32File_blocks _).2.2 zlibCrc32 composes_zlibCrc32 rfl

end

end Cfdp.Crc
