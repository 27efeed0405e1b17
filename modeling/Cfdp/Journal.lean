import Cfdp.World

/-!
# The crash-safe journal

`atomic_write` writes the record to `state.bin.tmp` byte by byte and renames it
over `state.bin`; every update reads the file back, patches the record and
writes it again. The `wp` rules say what a run passes: worlds that differ in the
temporary file only, and the committed world.
-/

namespace Cfdp

open Crash Prog

namespace Journal

/-- Fill `state.bin.tmp`, one byte at a time. -/
def writeTmp (bs : Bytes) : M Unit :=
  steps ((List.range bs.length).map fun i w => w.setTmp (some (bs.take (i + 1))))

/-- `std::rename(tmp, state.bin)`. -/
def rename (u : JournalUpdate) (w : World) : World :=
  ((w.setTmp none).setJournal w.disk.tmp).record (.journal u)

def atomicWrite (o : Oracle) (u : JournalUpdate) (s : JournalState) : M Bool := do
  if o.fails .tmpOpen then
    return false
  else
    step fun w => w.setTmp (some [])
    if o.fails .tmpWrite then
      writeTmp (s.encode.take o.short)
      return false
    else
      writeTmp s.encode
      if o.fails .rename then
        return false
      else
        step (rename u)
        return true

/-- Read the record, patch it with `f`, write it back. -/
def update (o : Oracle) (u : JournalUpdate) (f : JournalState → Option JournalState) : M Bool := do
  let w ← get
  if o.fails .journalOpen then
    return false
  else
    match JournalState.decode w.disk.stateBin with
    | none => return false
    | some s =>
      match f s with
      | none => return false
      | some s' => atomicWrite o u s'

def create (o : Oracle) (s : JournalState) : M Bool := atomicWrite o (.create s) s

def markChunkDone (o : Oracle) (ci : UInt32) : M Bool :=
  update o (.chunkDone ci) fun s =>
    if ci.toNat ≥ s.chunkDone.length then none else some (s.markDone ci)

def markEofReceived (o : Oracle) : M Bool := update o .eofReceived fun s => some s.markEof

def remove (o : Oracle) : M Bool := do
  let w ← get
  if o.fails .journalRemove || w.disk.stateBin.isNone then
    return false
  else
    step World.dropJournal
    return true

/-! ## Rules -/

section

variable {C : World → Prop} {E : RuntimeError → World → Prop} {w : World} {o : Oracle}

theorem foldl_writeTmp (bs : Bytes) (w : World) (hw : w.disk.tmp = some []) :
    ((List.range bs.length).map fun i (w : World) => w.setTmp (some (bs.take (i + 1)))).foldl
      (fun s f => f s) w = w.setTmp (some bs) := by
  have key : ∀ n, n ≤ bs.length →
      ((List.range n).map fun i (w : World) => w.setTmp (some (bs.take (i + 1)))).foldl
        (fun s f => f s) w = w.setTmp (some (bs.take n)) := by
    intro n hn
    induction n with
    | zero =>
      rw [List.take_zero, ← hw]; rfl
    | succ n ih =>
      rw [List.range_succ, List.map_append, List.foldl_append, ih (by omega)]
      rfl
  rw [key _ (Nat.le_refl _), List.take_length]

theorem wp_writeTmp {Q : Unit → World → Prop} {bs : Bytes} (hw : w.disk.tmp = some [])
    (hC : ∀ t, C (w.setTmp t)) (hQ : Q () (w.setTmp (some bs))) : wp (writeTmp bs) C Q E w := by
  refine wp_steps (I := fun x => ∃ t, x = w.setTmp t) ⟨_, rfl⟩ ?_ ?_ ?_
  · intro f hf x hx
    obtain ⟨i, -, rfl⟩ := List.mem_map.mp hf
    obtain ⟨t, rfl⟩ := hx
    exact ⟨_, rfl⟩
  · rintro x ⟨t, rfl⟩
    exact hC t
  · rw [foldl_writeTmp bs w hw]
    exact hQ

/-- An atomic write either leaves the journal alone or commits the record. -/
theorem wp_atomicWrite {Q : Bool → World → Prop} {u : JournalUpdate} {s : JournalState}
    (hC : ∀ t, C (w.setTmp t)) (hfail : ¬ o.Writes → ∀ t, Q false (w.setTmp t))
    (hok : C (w.commit u s) ∧ Q true (w.commit u s)) : wp (atomicWrite o u s) C Q E w := by
  unfold atomicWrite
  rw [wp_ite]
  refine ⟨fun h => ?_, fun _ => ?_⟩
  · rw [wp_pure]
    exact hfail (fun hw => by rw [hw.tmpOpen] at h; cases h) w.disk.tmp
  rw [wp_bind, wp_step]
  refine ⟨hC _, ?_⟩
  rw [wp_ite]
  refine ⟨fun h => ?_, fun _ => ?_⟩
  · rw [wp_bind]
    refine wp_writeTmp rfl (fun t => hC t) ?_
    rw [wp_pure]
    exact hfail (fun hw => by rw [hw.tmpWrite] at h; cases h) _
  · rw [wp_bind]
    refine wp_writeTmp rfl (fun t => hC t) ?_
    rw [wp_ite]
    refine ⟨fun h => ?_, fun _ => ?_⟩
    · rw [wp_pure]
      exact hfail (fun hw => by rw [hw.rename] at h; cases h) _
    · rw [wp_bind, wp_step, wp_pure]
      exact hok

theorem wp_update {Q : Bool → World → Prop} {u : JournalUpdate}
    {f : JournalState → Option JournalState} (hC : ∀ t, C (w.setTmp t))
    (hfail : (o.Updates → ∀ s, JournalState.decode w.disk.stateBin = some s → f s = none) →
      ∀ t, Q false (w.setTmp t))
    (hok : ∀ s s', JournalState.decode w.disk.stateBin = some s → f s = some s' →
      C (w.commit u s') ∧ Q true (w.commit u s')) : wp (update o u f) C Q E w := by
  rw [update, wp_bind, wp_get, wp_ite]
  refine ⟨fun h => ?_, fun _ => ?_⟩
  · rw [wp_pure]
    exact hfail (fun hu => by rw [hu.journalOpen] at h; cases h) w.disk.tmp
  cases hd : JournalState.decode w.disk.stateBin with
  | none =>
    simp only [wp_pure]
    exact hfail (fun _ s hs => by rw [hd] at hs; cases hs) w.disk.tmp
  | some s =>
    cases hf : f s with
    | none =>
      simp only [hf, wp_pure]
      exact hfail (fun _ s' hs => by rw [hd] at hs; cases hs; exact hf) w.disk.tmp
    | some s' =>
      simp only [hf]
      refine wp_atomicWrite hC (fun hns t => ?_) (hok s s' hd hf)
      exact hfail (fun hu => absurd hu.toWrites hns) t

theorem wp_remove {Q : Bool → World → Prop}
    (hfail : (o.JournalSmooth → w.disk.stateBin = none) → Q false w)
    (hok : w.disk.stateBin ≠ none → C w.dropJournal ∧ Q true w.dropJournal) :
    wp (remove o) C Q E w := by
  unfold remove
  rw [wp_bind, wp_get, wp_ite]
  refine ⟨fun h => ?_, fun h => ?_⟩
  · rw [wp_pure]
    refine hfail fun hs => ?_
    rw [hs _ rfl, Bool.false_or] at h
    exact Option.isNone_iff_eq_none.mp h
  · rw [wp_bind, wp_step, wp_pure]
    refine hok fun hn => h ?_
    rw [hn]; simp

end

end Journal

end Cfdp
