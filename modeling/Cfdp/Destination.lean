import Cfdp.Invariant
import Cfdp.Lib.Paths

/-!
# Where the received file goes

`handle_metadata` checks the filename up to its first NUL, at most its 256 bytes, and
builds `dest_path` with `%s/%s` into 512 bytes. `Confined` says that the path stored is
that of the file of this name in `recv_dir`. What is stored is the formatted string up to
its 511th byte, where `%s` reads on behind a filename without NUL (`beyond`); the path is
the right one exactly when nothing of that happens (`destString_eq_iff`).
-/

namespace Cfdp

open Crash Prog Paths

/-- `/` -/
def slash : UInt8 := 0x2F

/-- `.` -/
def dot : UInt8 := 0x2E

namespace MetadataPdu

/-- The name `handle_metadata` checks. -/
def name (m : MetadataPdu) : Bytes := cstr m.filename.toList

/-- The bytes `%s` reads behind the field. -/
def beyond (o : Oracle) (m : MetadataPdu) : Bytes :=
  if m.name.length = 256 then cstr o.overread else []

end MetadataPdu

/-- The file of the record is the one that the Metadata names, directly inside `recv_dir`. -/
structure Confined (env : Env) (m : MetadataPdu) (s : JournalState) : Prop where
  path : s.recvFilePath = env.recvDir ++ slash :: m.name
  single : Name slash dot m.name
  inside : ∀ cwd, resolve slash dot cwd s.recvFilePath =
    resolve slash dot cwd (env.recvDir ++ [slash]) ++ [m.name]

/-- The path fits into `dest_path`, nothing is read behind the filename, or nothing of it
fits, and the name is not `.`. -/
structure Fits (env : Env) (o : Oracle) (m : MetadataPdu) : Prop where
  dir : ∀ b ∈ env.recvDir, b ≠ 0
  length : env.recvDir.length + 1 + m.name.length ≤ 511
  terminated : m.name.length < 256 ∨ cstr o.overread = [] ∨ env.recvDir.length = 254
  notDot : m.name ≠ [dot]

section

variable {env : Env} {o : Oracle} {m : MetadataPdu} {w : World}

theorem take_append_eq_left {α : Type} {xs ys : List α} {n : Nat} :
    (xs ++ ys).take n = xs ↔ xs.length ≤ n ∧ (ys = [] ∨ xs.length = n) := by
  constructor
  · intro h
    have hlen : xs.length ≤ n := by
      rw [← h, List.length_take]
      omega
    have hrest : ys.take (n - xs.length) = [] := by
      rw [List.take_append, List.take_of_length_le hlen] at h
      exact List.append_cancel_left (h.trans (List.append_nil xs).symm)
    refine ⟨hlen, ?_⟩
    rcases List.take_eq_nil_iff.mp hrest with h0 | hnil
    · exact .inr (by omega)
    · exact .inl hnil
  · rintro ⟨hlen, rfl | hfull⟩
    · rw [List.append_nil, List.take_of_length_le hlen]
    · exact List.take_left' hfull

theorem MetadataPdu.length_name (m : MetadataPdu) : m.name.length ≤ 256 := by
  have hlen : m.filename.toList.length = 256 := m.filename.2
  rw [← hlen]
  exact (List.takeWhile_prefix _).length_le

/-- `%s` reads the name and what stands behind it. -/
theorem MetadataPdu.cstr_filename (o : Oracle) (m : MetadataPdu) :
    cstr (m.filename.toList ++ o.overread) = m.name ++ m.beyond o := by
  have hlen : m.filename.toList.length = 256 := m.filename.2
  have happ : cstr (m.filename.toList ++ o.overread) =
      if m.name.length = m.filename.toList.length then m.filename.toList ++ cstr o.overread
      else m.name := List.takeWhile_append
  rw [happ, hlen]
  unfold MetadataPdu.beyond
  by_cases h : m.name.length = 256
  · have hname : m.name = m.filename.toList :=
      (List.takeWhile_prefix _).eq_of_length (h.trans hlen.symm)
    rw [if_pos h, if_pos h, hname]
  · rw [if_neg h, if_neg h, List.append_nil]

theorem MetadataPdu.beyond_eq_nil_iff :
    m.beyond o = [] ↔ m.name.length < 256 ∨ cstr o.overread = [] := by
  have hle := m.length_name
  unfold MetadataPdu.beyond
  by_cases h : m.name.length = 256
  · rw [if_pos h]
    exact ⟨.inr, fun h' => h'.resolve_left (by omega)⟩
  · rw [if_neg h]
    exact ⟨fun _ => .inl (by omega), fun _ => rfl⟩

theorem MetadataPdu.destString_eq (env : Env) (o : Oracle) (m : MetadataPdu) :
    destString env o m = ((cstr env.recvDir ++ slash :: m.name) ++ m.beyond o).take 511 := by
  unfold destString
  rw [m.cstr_filename]
  simp only [slash, List.append_assoc, List.cons_append]

/-- The string formatted is the path of the name exactly when it fits. -/
theorem destString_eq_iff : destString env o m = env.recvDir ++ slash :: m.name ↔
    (∀ b ∈ env.recvDir, b ≠ 0) ∧ env.recvDir.length + 1 + m.name.length ≤ 511 ∧
      (m.name.length < 256 ∨ cstr o.overread = [] ∨ env.recvDir.length = 254) := by
  have hle := m.length_name
  have hlen : (env.recvDir ++ slash :: m.name).length = env.recvDir.length + 1 + m.name.length := by
    rw [List.length_append, List.length_cons]
    omega
  constructor
  · intro h
    -- the string has no NUL, so the directory has none
    have hdir : ∀ b ∈ env.recvDir, b ≠ 0 := fun b hb =>
      destString_ne_zero env o m b (by rw [h]; exact List.mem_append_left _ hb)
    rw [m.destString_eq, cstr_eq_self hdir, take_append_eq_left, hlen] at h
    obtain ⟨hfits, hnil | hfull⟩ := h
    · rcases MetadataPdu.beyond_eq_nil_iff.mp hnil with hn | hn
      · exact ⟨hdir, hfits, .inl hn⟩
      · exact ⟨hdir, hfits, .inr (.inl hn)⟩
    · by_cases hshort : m.name.length < 256
      · exact ⟨hdir, hfits, .inl hshort⟩
      · exact ⟨hdir, hfits, .inr (.inr (by omega))⟩
  · rintro ⟨hdir, hfits, hterm⟩
    rw [m.destString_eq, cstr_eq_self hdir, take_append_eq_left, hlen]
    refine ⟨hfits, ?_⟩
    by_cases hnil : m.beyond o = []
    · exact .inl hnil
    · obtain ⟨hlong, hover⟩ := not_or.mp (mt MetadataPdu.beyond_eq_nil_iff.mpr hnil)
      have hdirlen := (hterm.resolve_left hlong).resolve_left hover
      exact .inr (by omega)

/-- The checks leave one name that is not one: `.`. -/
theorem name_of_safeName {fname : Bytes} (h : safeName fname = true) (hdot : fname ≠ [dot]) :
    Name slash dot fname := by
  simp only [safeName, Bool.and_eq_true, Bool.not_eq_true', List.isEmpty_eq_false_iff,
    List.contains_eq_mem, decide_eq_false_iff_not] at h
  obtain ⟨⟨hne, hslash⟩, hdots⟩ := h
  refine ⟨hne, hslash, hdot, fun h => hdots ?_⟩
  rw [h]
  exact List.infix_refl _

/-- The record after an accepted Metadata. -/
theorem state_handleMetadata (h : w.rx.accepts m = true) :
    (handleMetadata env o m w).final.rx.state = w.rx.state.start env o m := by
  have hspec : wp (handleMetadata env o m) (fun _ => True)
      (fun _ x => x.rx.state = w.rx.state.start env o m) (fun _ _ => False) w := by
    refine wp_handleMetadata (fun _ ha => ?_) (fun hr => ?_) fun _ => ⟨fun _ => trivial, ?_⟩
    · rw [h] at ha
      cases ha
    · rw [CfdpReceiver.accepts_repeatsAck h] at hr
      cases hr
    · rintro w₁ hw₁ w₂ rfl
      refine ⟨fun _ => trivial, trivial, fun w₃ hw₃ => ?_⟩
      show w₃.rx.state = _
      rw [hw₃.alike.1, World.setRx_rx, hw₁.alike.1]
  obtain ⟨_, -, hfinal⟩ := hspec.returns
  exact hfinal

theorem safeName_of_accepts {rx : CfdpReceiver} (h : rx.accepts m = true) :
    safeName m.name = true :=
  (MetadataPdu.sane_iff.mp (CfdpReceiver.sane_of_accepts h)).2.2.2

/-- The record started is confined exactly when the path fits. -/
theorem confined_start (hsafe : safeName m.name = true) (s : JournalState) :
    Confined env m (s.start env o m) ↔ Fits env o m := by
  have hpath : (s.start env o m).recvFilePath = destString env o m :=
    JournalState.recvFilePath_start s m
  constructor
  · intro h
    obtain ⟨hdir, hlen, hterm⟩ := destString_eq_iff.mp (hpath.symm.trans h.path)
    exact ⟨hdir, hlen, hterm, h.single.notDot⟩
  · intro h
    have hname := name_of_safeName hsafe h.notDot
    have heq : (s.start env o m).recvFilePath = env.recvDir ++ slash :: m.name :=
      hpath.trans (destString_eq_iff.mpr ⟨h.dir, h.length, h.terminated⟩)
    refine ⟨heq, hname, fun cwd => ?_⟩
    rw [heq]
    exact resolve_name env.recvDir hname

end

/-- **Where the file of an accepted Metadata goes.** -/
theorem confined_iff (env : Env) :
    (∀ (o : Oracle) (w : World) (m : MetadataPdu), w.rx.accepts m = true →
      (Confined env m (handleMetadata env o m w).final.rx.state ↔ Fits env o m)) ∧
    ∀ (o o' : Oracle) (w w' : World) (m m' : MetadataPdu),
      w.rx.accepts m = true → w'.rx.accepts m' = true → Fits env o m → Fits env o' m' →
      m.name ≠ m'.name →
        (handleMetadata env o m w).final.rx.state.recvFilePath ≠
          (handleMetadata env o' m' w').final.rx.state.recvFilePath := by
  refine ⟨fun o w m hacc => ?_, fun o o' w w' m m' hacc hacc' hfits hfits' hne heq => ?_⟩
  · rw [state_handleMetadata hacc]
    exact confined_start (safeName_of_accepts hacc) w.rx.state
  · rw [state_handleMetadata hacc, state_handleMetadata hacc',
      ((confined_start (safeName_of_accepts hacc) _).mpr hfits).path,
      ((confined_start (safeName_of_accepts hacc') _).mpr hfits').path] at heq
    exact hne (List.cons_injective (List.append_cancel_left heq))

/-- The Metadata of a file of one byte. -/
def metadataNamed (name : Bytes) : MetadataPdu where
  transactionId := 7
  fileSize := 1
  chunkSize := 1
  packetSize := 1
  totalChunks := 1
  checksum := 0
  filename := CharArray.ofBytes 256 name

theorem name_metadataNamed {name : Bytes} (hlen : name.length < 256) (hne : ∀ b ∈ name, b ≠ 0) :
    (metadataNamed name).name = name := by
  have h := cstr_ofBytes hlen []
  rw [List.append_nil, cstr_eq_self hne] at h
  exact h

/-- The receiver with an empty disk. -/
def freshWorld : World := ⟨.construct .blank, ⟨none, none, fun _ => none⟩, []⟩

theorem confined_small :
    Confined sampleEnv (metadataNamed [0x61])
        (handleMetadata sampleEnv noFaults (metadataNamed [0x61]) freshWorld).final.rx.state ∧
      (handleMetadata sampleEnv noFaults
          (metadataNamed [0x61]) freshWorld).final.rx.state.recvFilePath ≠
        (handleMetadata sampleEnv noFaults
          (metadataNamed [0x62]) freshWorld).final.rx.state.recvFilePath := by
  have ha : (metadataNamed [0x61]).name = [0x61] :=
    name_metadataNamed (by decide) (List.forall_mem_singleton.mpr (by decide))
  have hb : (metadataNamed [0x62]).name = [0x62] :=
    name_metadataNamed (by decide) (List.forall_mem_singleton.mpr (by decide))
  have hdir : ∀ b ∈ sampleEnv.recvDir, b ≠ 0 := List.forall_mem_singleton.mpr (by decide)
  have hfits : Fits sampleEnv noFaults (metadataNamed [0x61]) :=
    ⟨hdir, by rw [ha]; decide, .inl (by rw [ha]; decide), by rw [ha]; decide⟩
  have hfits' : Fits sampleEnv noFaults (metadataNamed [0x62]) :=
    ⟨hdir, by rw [hb]; decide, .inl (by rw [hb]; decide), by rw [hb]; decide⟩
  exact ⟨((confined_iff sampleEnv).1 noFaults freshWorld _ (by decide)).mpr hfits,
    (confined_iff sampleEnv).2 noFaults noFaults freshWorld freshWorld _ _ (by decide) (by decide)
      hfits hfits' (by rw [ha, hb]; decide)⟩

/-- A directory whose path takes `n` bytes. -/
def dirEnv (n : Nat) : Env := ⟨List.replicate n 0x72, Crc.zlibCrc32⟩

/-- A name of `k + 1` bytes that ends in `b`. -/
def longName (k : Nat) (b : UInt8) : Bytes := List.replicate k 0x61 ++ [b]

theorem length_dirEnv (n : Nat) : (dirEnv n).recvDir.length = n := List.length_replicate

theorem length_longName (k : Nat) (b : UInt8) : (longName k b).length = k + 1 := by
  unfold longName
  rw [List.length_append, List.length_replicate, List.length_singleton]

theorem name_longName {k : Nat} {b : UInt8} (hk : k + 1 < 256) (hb : b ≠ 0) :
    (metadataNamed (longName k b)).name = longName k b := by
  refine name_metadataNamed ?_ fun c hc => ?_
  · rwa [length_longName]
  · rcases List.mem_append.mp hc with hc | hc
    · rw [List.eq_of_mem_replicate hc]
      decide
    · rwa [List.mem_singleton.mp hc]

/-- The path takes 512 bytes, and the last one is cut off. -/
theorem recvFilePath_longName {n k : Nat} {b : UInt8} (hn : n + 1 + k = 511) (hk : k + 1 < 256)
    (hb : b ≠ 0) (s : JournalState) :
    (s.start (dirEnv n) noFaults (metadataNamed (longName k b))).recvFilePath =
      (dirEnv n).recvDir ++ slash :: List.replicate k 0x61 := by
  have hdir : ∀ c ∈ (dirEnv n).recvDir, c ≠ 0 := by
    intro c hc
    rw [List.eq_of_mem_replicate hc]
    decide
  have hnil : (metadataNamed (longName k b)).beyond noFaults = [] :=
    MetadataPdu.beyond_eq_nil_iff.mpr (.inr rfl)
  have hsplit : (dirEnv n).recvDir ++ slash :: longName k b =
      ((dirEnv n).recvDir ++ slash :: List.replicate k 0x61) ++ [b] := by
    unfold longName
    rw [List.append_assoc, List.cons_append]
  rw [JournalState.recvFilePath_start, MetadataPdu.destString_eq, name_longName hk hb, hnil,
    List.append_nil, cstr_eq_self hdir, hsplit]
  refine List.take_left' ?_
  rw [List.length_append, List.length_cons, List.length_replicate, length_dirEnv]
  omega

/-- Two names that are accepted share a path, which is the path of neither. -/
theorem not_confined :
    freshWorld.rx.accepts (metadataNamed (longName 210 0x62)) = true ∧
      freshWorld.rx.accepts (metadataNamed (longName 210 0x63)) = true ∧
      ¬ Confined (dirEnv 300) (metadataNamed (longName 210 0x62))
        (handleMetadata (dirEnv 300) noFaults
          (metadataNamed (longName 210 0x62)) freshWorld).final.rx.state ∧
      (handleMetadata (dirEnv 300) noFaults
          (metadataNamed (longName 210 0x62)) freshWorld).final.rx.state.recvFilePath =
        (handleMetadata (dirEnv 300) noFaults
          (metadataNamed (longName 210 0x63)) freshWorld).final.rx.state.recvFilePath := by
  have hb : freshWorld.rx.accepts (metadataNamed (longName 210 0x62)) = true := by decide +kernel
  have hc : freshWorld.rx.accepts (metadataNamed (longName 210 0x63)) = true := by decide +kernel
  refine ⟨hb, hc, ?_⟩
  rw [state_handleMetadata hb, state_handleMetadata hc,
    recvFilePath_longName (by decide) (by decide) (by decide),
    recvFilePath_longName (by decide) (by decide) (by decide)]
  refine ⟨fun h => ?_, rfl⟩
  have hfits := ((confined_start (safeName_of_accepts hb) _).mp h).length
  rw [name_longName (by decide) (by decide), length_longName, length_dirEnv] at hfits
  exact absurd hfits (by decide)

end Cfdp
