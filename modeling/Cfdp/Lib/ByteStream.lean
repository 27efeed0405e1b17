import Cfdp.Lib.LittleEndian

/-!
# Byte streams

A byte stream between two programs. A write appends its bytes. A read delivers some of the
bytes in front, at least one if there are any and at most as many as were asked for: how
many is up to the operating system, and `sizes` says what it chooses, read by read. A read
that waits for a later write is one that delivers fewer bytes.

A loop that asks for what is missing until it is there `Collects` the bytes in front, or
`Starves` if there are not enough. A reader that takes one frame off the front of the stream,
however it is split, takes a list of frames (`Reads.repeat`).
-/

structure ByteStream where
  /-- The bytes written and not yet read. -/
  pending : Bytes
  /-- How many bytes the next reads deliver, within their bounds. -/
  sizes : Nat → Nat

namespace ByteStream

variable {s : ByteStream}

def write (bs : Bytes) (s : ByteStream) : ByteStream := { s with pending := s.pending ++ bs }

/-- The number of bytes a read of `n` bytes may deliver. -/
def allowance (n : Nat) (s : ByteStream) : Nat := min n (max 1 (s.sizes 0))

/-- `read(fd, buf, n)`: the bytes delivered, and the stream after. -/
def read (n : Nat) (s : ByteStream) : Bytes × ByteStream :=
  (s.pending.take (s.allowance n), ⟨s.pending.drop (s.allowance n), fun i => s.sizes (i + 1)⟩)

/-- A read delivers what is in front, at most `n` bytes and, if any are pending, at least one. -/
theorem exists_read {n : Nat} (hn : 0 < n) :
    ∃ k, 0 < k ∧ k ≤ n ∧ (s.read n).1 = s.pending.take k ∧
      (s.read n).2.pending = s.pending.drop k := by
  have hk : 0 < s.allowance n ∧ s.allowance n ≤ n := by
    unfold allowance
    omega
  exact ⟨s.allowance n, hk.1, hk.2, rfl, rfl⟩

/-! ## Collecting -/

/-- The reads of a loop that asks for the `n` bytes that are missing until it has them. -/
inductive Collects : Nat → ByteStream → Bytes → ByteStream → Prop where
  | done {s : ByteStream} : Collects 0 s [] s
  | round {n : Nat} {s s' : ByteStream} {bs : Bytes} (hn : 0 < n) (hne : (s.read n).1 ≠ [])
      (hle : (s.read n).1.length ≤ n)
      (h : Collects (n - (s.read n).1.length) (s.read n).2 bs s') :
      Collects n s ((s.read n).1 ++ bs) s'

/-- If enough is pending the loop ends, with the bytes in front and no others. -/
theorem exists_collects {n : Nat} (hs : n ≤ s.pending.length) :
    ∃ s', Collects n s (s.pending.take n) s' ∧ s'.pending = s.pending.drop n := by
  induction n using Nat.strong_induction_on generalizing s with
  | h n ih =>
    by_cases hn : n = 0
    · subst hn
      exact ⟨s, .done, rfl⟩
    · obtain ⟨k, hpos, hle, hchunk, hrest⟩ := @exists_read s n (Nat.pos_of_ne_zero hn)
      have hlen : (s.read n).1.length = k := by
        rw [hchunk, List.length_take]
        omega
      have hs' : n - k ≤ (s.read n).2.pending.length := by
        rw [hrest, List.length_drop]
        omega
      obtain ⟨s', hcol, hpending⟩ := ih (n - k) (by omega) hs'
      have hsplit : n = k + (n - k) := by omega
      rw [hrest] at hcol hpending
      refine ⟨s', ?_, ?_⟩
      · rw [hsplit, List.take_add, ← hchunk, ← hsplit]
        apply Collects.round (Nat.pos_of_ne_zero hn)
        · exact List.ne_nil_of_length_pos (by omega)
        · omega
        · rwa [hlen]
      · rw [hpending, List.drop_drop, ← hsplit]

/-- The reads of such a loop when the bytes run out before it has them all. -/
inductive Starves : Nat → ByteStream → ByteStream → Prop where
  | done {n : Nat} {s : ByteStream} (hn : 0 < n) (h : (s.read n).1 = []) : Starves n s (s.read n).2
  | round {n : Nat} {s s' : ByteStream} (hn : 0 < n) (hne : (s.read n).1 ≠ [])
      (hlt : (s.read n).1.length < n) (h : Starves (n - (s.read n).1.length) (s.read n).2 s') :
      Starves n s s'

/-- If too little is pending the loop uses it up. -/
theorem exists_starves {n : Nat} (hs : s.pending.length < n) :
    ∃ s', Starves n s s' ∧ s'.pending = [] := by
  induction n using Nat.strong_induction_on generalizing s with
  | h n ih =>
    have hpos : 0 < n := by omega
    have hall : 0 < s.allowance n := by
      unfold allowance
      omega
    have hchunk : (s.read n).1 = s.pending.take (s.allowance n) := rfl
    have hrest : (s.read n).2.pending = s.pending.drop (s.allowance n) := rfl
    by_cases hnil : s.pending = []
    · refine ⟨(s.read n).2, .done hpos ?_, ?_⟩
      · rw [hchunk, hnil, List.take_nil]
      · rw [hrest, hnil, List.drop_nil]
    · have hlen : (s.read n).1.length = min (s.allowance n) s.pending.length := by
        rw [hchunk, List.length_take]
      have hsome : 0 < s.pending.length := List.length_pos_of_ne_nil hnil
      have hs' : (s.read n).2.pending.length < n - (s.read n).1.length := by
        rw [hrest, List.length_drop]
        omega
      obtain ⟨s', hstarve, hpending⟩ := ih (n - (s.read n).1.length) (by omega) hs'
      refine ⟨s', .round hpos ?_ (by omega) hstarve, hpending⟩
      exact List.ne_nil_of_length_pos (by omega)

/-! ## Readers -/

/-- A program that reads: its result or the text it throws, and the stream after. -/
abbrev Reader (α : Type) : Type := ByteStream → Except String α × ByteStream

/-- `k` results of a reader, one after the other. -/
def Reader.repeat {α : Type} (recv : Reader α) : Nat → Reader (List α)
  | 0, s => (.ok [], s)
  | k + 1, s =>
    match recv s with
    | (.error e, s) => (.error e, s)
    | (.ok a, s) =>
      match Reader.repeat recv k s with
      | (.error e, s) => (.error e, s)
      | (.ok as, s) => (.ok (a :: as), s)

/-- With `bs` in front, the reader takes these bytes, no more, and returns `a`. -/
def Reads {α : Type} (recv : Reader α) (bs : Bytes) (a : α) : Prop :=
  ∀ s rest, s.pending = bs ++ rest → ∃ s', recv s = (.ok a, s') ∧ s'.pending = rest

/-- A reader that collects `n` bytes and returns them takes any `n` bytes. -/
theorem reads_of_collects {recv : Reader Bytes} {bs : Bytes} {n : Nat} (hbs : bs.length = n)
    (h : ∀ s s', Collects n s bs s' → recv s = (.ok bs, s')) : Reads recv bs bs := by
  intro s rest hs
  have hn : n ≤ s.pending.length := by
    rw [hs, List.length_append]
    omega
  obtain ⟨s', hcol, hpending⟩ := exists_collects hn
  rw [hs, List.take_left' hbs] at hcol
  rw [hs, List.drop_left' hbs] at hpending
  exact ⟨s', h s s' hcol, hpending⟩

/-- With `bs` pending and no more, the reader takes all of it and throws `e`. -/
def Fails {α : Type} (recv : Reader α) (bs : Bytes) (e : String) : Prop :=
  ∀ s, s.pending = bs → ∃ s', recv s = (.error e, s') ∧ s'.pending = []

/-- A reader that starves for lack of the `n` bytes it collects, and then throws. -/
theorem fails_of_starves {recv : Reader Bytes} {bs : Bytes} {n : Nat} {e : String}
    (hbs : bs.length < n) (h : ∀ s s', Starves n s s' → recv s = (.error e, s')) :
    Fails recv bs e := by
  intro s hs
  rw [← hs] at hbs
  obtain ⟨s', hstarve, hpending⟩ := exists_starves hbs
  exact ⟨s', h s s' hstarve, hpending⟩

/-- A reader that takes each frame takes them one after the other. -/
theorem Reads.repeat {α β : Type} {recv : Reader α} {frame : β → Bytes} {value : β → α}
    {xs : List β} (h : ∀ x ∈ xs, Reads recv (frame x) (value x)) :
    Reads (recv.repeat xs.length) (xs.flatMap frame) (xs.map value) := by
  induction xs with
  | nil => exact fun s rest hs => ⟨s, rfl, hs⟩
  | cons x xs ih =>
    intro s rest hs
    rw [List.flatMap_cons, List.append_assoc] at hs
    obtain ⟨s₁, h1, hs₁⟩ := h x List.mem_cons_self s _ hs
    obtain ⟨s₂, h2, hs₂⟩ := ih (fun y hy => h y (List.mem_cons_of_mem x hy)) s₁ rest hs₁
    refine ⟨s₂, ?_, hs₂⟩
    rw [List.length_cons, Reader.repeat, h1]
    simp only [h2, List.map_cons]

end ByteStream
