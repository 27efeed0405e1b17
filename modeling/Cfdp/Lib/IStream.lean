import Cfdp.Lib.LittleEndian

/-!
# Input file streams

`IStream` is a `std::ifstream` opened on a file: the unread bytes and `good()`.
A short read delivers what there is and fails the stream; a failed stream
delivers nothing. `readInto` reads into a buffer that keeps its old bytes where
the read did not reach. A stream is `Short` of `k` bytes if reading `k` more
bytes leaves it failed, in however many reads.

`Feeds` are the blocks a loop reads, one a round; a loop that `Drains` what is left
ends and is given every byte once.
-/

structure IStream where
  rest : Bytes
  good : Bool

namespace IStream

/-- `f.read(buf, n)`: the bytes delivered (`gcount`), and the stream after. -/
def read (n : Nat) (f : IStream) : Bytes × IStream :=
  if f.good then (f.rest.take n, ⟨f.rest.drop n, decide (n ≤ f.rest.length)⟩) else ([], f)

/-- `f.read(cur, n)`: the buffer and the stream after. -/
def readInto (n : Nat) (cur : Bytes) (f : IStream) : Bytes × IStream :=
  let (got, f') := f.read n
  (got ++ cur.drop got.length, f')

theorem readInto_append {n : Nat} {b c : Bytes} (hb : b.length = n) (hc : c.length = n)
    (r : Bytes) : readInto n c ⟨b ++ r, true⟩ = (b, ⟨r, true⟩) := by
  have ht : (b ++ r).take n = b := by
    rw [List.take_append_of_le_length (by omega), List.take_of_length_le (by omega)]
  have hd : (b ++ r).drop n = r := by rw [← hb, List.drop_left]
  have hg : n ≤ (b ++ r).length := by simp; omega
  simp only [readInto, read, if_true, ht, hd, decide_eq_true hg]
  rw [List.drop_of_length_le (by omega), List.append_nil]

/-- A read that does not reach the end. -/
theorem readInto_full {n : Nat} {cur bs : Bytes} (hc : cur.length = n) (hn : n ≤ bs.length) :
    readInto n cur ⟨bs, true⟩ = (bs.take n, ⟨bs.drop n, true⟩) := by
  have h := readInto_append (b := bs.take n) (List.length_take_of_le hn) hc (bs.drop n)
  rwa [List.take_append_drop] at h

/-- Reading `k` bytes fails the stream, unless it has failed already. -/
def Short (f : IStream) (k : Nat) : Prop := f.good = true → f.rest.length < k

theorem Short.mono {f : IStream} {k k' : Nat} (h : f.Short k) (hk : k ≤ k') : f.Short k' :=
  fun hg => Nat.lt_of_lt_of_le (h hg) hk

theorem Short.failed {f : IStream} (h : f.Short 0) : f.good = false := by
  by_contra hg
  exact absurd (h (by simpa using hg)) (Nat.not_lt_zero _)

/-- A read takes its bytes off what is missing. -/
theorem Short.readInto {f : IStream} {n k : Nat} (h : f.Short (n + k)) (cur : Bytes) :
    (f.readInto n cur).2.Short k := by
  intro hg
  have hr : (f.readInto n cur).2 = (f.read n).2 := rfl
  rw [hr] at hg ⊢
  unfold IStream.read at hg ⊢
  by_cases hf : f.good = true
  · have hlen := h hf
    rw [if_pos hf] at hg ⊢
    have hn : n ≤ f.rest.length := by simpa using hg
    show (f.rest.drop n).length < k
    rw [List.length_drop]
    omega
  · rw [if_neg hf] at hg
    exact absurd hg hf

/-- The bytes that reads still deliver. -/
def left (f : IStream) : Bytes := if f.good then f.rest else []

theorem read_append_left (n : Nat) (f : IStream) : (f.read n).1 ++ (f.read n).2.left = f.left := by
  unfold read left
  by_cases hf : f.good = true
  · rw [if_pos hf, if_pos hf]
    by_cases hn : n ≤ f.rest.length
    · rw [if_pos (decide_eq_true hn), List.take_append_drop]
    · rw [if_neg (by simpa using hn), List.append_nil, List.take_of_length_le (by omega)]
  · rw [if_neg hf, if_neg hf, List.append_nil]

/-- A read that leaves the stream good delivered all it was asked for. -/
theorem length_read_of_good {n : Nat} {f : IStream} (h : (f.read n).2.good = true) :
    (f.read n).1.length = n := by
  unfold read at h ⊢
  by_cases hf : f.good = true
  · rw [if_pos hf] at h ⊢
    have hn : n ≤ f.rest.length := by simpa using h
    exact List.length_take_of_le hn
  · rw [if_neg hf] at h
    exact absurd h hf

end IStream

/-! ## Loops over blocks -/

/-- The blocks a loop is given, one a round. `next` is the block of the next round with the
state after it, or `none` if the loop ends. -/
inductive Feeds {α σ : Type} (next : σ → Option (List α × σ)) : σ → List (List α) → Prop where
  | stop {s : σ} (h : next s = none) : Feeds next s []
  | round {s s' : σ} {b : List α} {bs : List (List α)} (h : next s = some (b, s'))
      (hr : Feeds next s' bs) : Feeds next s (b :: bs)

/-- A round takes a block that is not empty off what is left; the loop ends when nothing is. -/
structure Drains {α σ : Type} (next : σ → Option (List α × σ)) (left : σ → List α) : Prop where
  stop : ∀ s, next s = none → left s = []
  round : ∀ s b s', next s = some (b, s') → b ≠ [] ∧ left s = b ++ left s'

/-- Such a loop ends, and its blocks are what was left. -/
theorem Drains.feeds {α σ : Type} {next : σ → Option (List α × σ)} {left : σ → List α}
    (h : Drains next left) (s : σ) :
    ∃ bs, Feeds next s bs ∧ bs.flatten = left s ∧ bs.length ≤ (left s).length := by
  induction hn : (left s).length using Nat.strong_induction_on generalizing s with
  | h n ih =>
    subst hn
    cases hnext : next s with
    | none => exact ⟨[], .stop hnext, (h.stop s hnext).symm, Nat.zero_le _⟩
    | some r =>
      obtain ⟨b, s'⟩ := r
      obtain ⟨hb, hleft⟩ := h.round s b s' hnext
      have hpos : 0 < b.length := List.length_pos_of_ne_nil hb
      have hlen : (left s).length = b.length + (left s').length := by
        rw [hleft, List.length_append]
      obtain ⟨bs, hfeeds, hflat, hle⟩ := ih _ (by omega) s' rfl
      refine ⟨b :: bs, .round hnext hfeeds, ?_, ?_⟩
      · rw [List.flatten_cons, hflat, hleft]
      · rw [List.length_cons]
        omega
