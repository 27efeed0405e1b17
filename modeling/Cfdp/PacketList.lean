import Cfdp.Lib.Runs
import Cfdp.Types

/-!
# Packet slots of a chunk

`PacketList` keeps one slot per packet of the chunk in progress. The nodes are
held in index order (`index_`), which is also the order of the links walked by
`assemble`. `validCount` is the counter kept by `insert`.

`missingRanges` is the scan shared by the packet list and the journal, with the
signed start sentinel of the source; `missingRanges_eq` removes the sentinel.
-/

namespace Cfdp

/-! ## Missing ranges -/

/-- One round of the scan: `start` is `range_start`, an `int` holding `-1` when no
range is open. -/
def scanRange (missing : UInt32 → Bool) (st : Int32 × List (UInt32 × UInt32)) (i : Nat) :
    Int32 × List (UInt32 × UInt32) :=
  if missing (UInt32.ofNat i) && st.1 == -1 then ((UInt32.ofNat i).toInt32, st.2)
  else if !missing (UInt32.ofNat i) && st.1 != -1 then
    (-1, st.2 ++ [(st.1.toUInt32, UInt32.ofNat i - 1)])
  else st

/-- The ranges of missing indices below `total`. -/
def missingRanges (missing : UInt32 → Bool) (total : UInt32) : List (UInt32 × UInt32) :=
  let st := (List.range total.toNat).foldl (scanRange missing) (-1, [])
  if st.1 != -1 then st.2 ++ [(st.1.toUInt32, total - 1)] else st.2

/-- A pair of indices as 32-bit integers. -/
def range32 (r : Nat × Nat) : UInt32 × UInt32 := (UInt32.ofNat r.1, UInt32.ofNat r.2)

/-- The start sentinel of an open run. -/
def sentinel : Option Nat → Int32
  | none => -1
  | some s => (UInt32.ofNat s).toInt32

theorem sentinel_eq_neg_one {s : Nat} (h : s < 2 ^ 32 - 1) : sentinel (some s) ≠ -1 := by
  intro he
  have h1 := congrArg Int32.toUInt32 he
  simp only [sentinel, UInt32.toUInt32_toInt32] at h1
  have h2 := congrArg UInt32.toNat h1
  rw [UInt32.toNat_ofNat', show (Int32.toUInt32 (-1)).toNat = 2 ^ 32 - 1 from rfl] at h2
  omega

theorem scanRange_visit {missing : UInt32 → Bool} {o : Option Nat} {rs : List (Nat × Nat)} {i : Nat}
    (hi : i < 2 ^ 32 - 1) (ho : ∀ s, o = some s → s < i) :
    scanRange missing (sentinel o, rs.map range32) i =
      (sentinel (Runs.visit (fun i => missing (UInt32.ofNat i)) (o, rs) i).1,
        (Runs.visit (fun i => missing (UInt32.ofNat i)) (o, rs) i).2.map range32) := by
  cases o with
  | none => cases hm : missing (UInt32.ofNat i) <;> simp [scanRange, Runs.visit, hm, sentinel]
  | some s =>
    have hs := ho s rfl
    have hne : sentinel (some s) ≠ -1 := sentinel_eq_neg_one (by omega)
    have hu : (sentinel (some s)).toUInt32 = UInt32.ofNat s := by simp [sentinel]
    have hi1 : UInt32.ofNat i - 1 = UInt32.ofNat (i - 1) := by
      apply UInt32.toNat_inj.mp
      simp only [UInt32.toNat_sub, UInt32.toNat_ofNat', show (1 : UInt32).toNat = 1 from rfl]
      omega
    cases hm : missing (UInt32.ofNat i) with
    | true => simp [scanRange, Runs.visit, hm, hne]
    | false =>
      simp only [scanRange, Runs.visit, hm, hu, hi1, Bool.false_and, Bool.false_eq_true, if_false,
        Bool.not_false, Bool.true_and]
      rw [if_pos (by simpa using hne)]
      simp [sentinel, range32]

/-- **The sentinel is harmless**: the scan returns the maximal runs. -/
theorem missingRanges_eq (missing : UInt32 → Bool) (total : UInt32) :
    missingRanges missing total =
      (Runs.scan (fun i => missing (UInt32.ofNat i)) total.toNat).map range32 := by
  have ht := total.toNat_lt
  have key : ∀ n, n ≤ total.toNat →
      (List.range n).foldl (scanRange missing) (-1, []) =
        (sentinel ((List.range n).foldl (Runs.visit fun i => missing (UInt32.ofNat i)) (none, [])).1,
          ((List.range n).foldl (Runs.visit fun i => missing (UInt32.ofNat i)) (none, [])).2.map range32) := by
    intro n hn
    induction n with
    | zero => simp [sentinel]
    | succ n ih =>
      rw [List.range_succ, List.foldl_append, List.foldl_append, ih (by omega)]
      exact scanRange_visit (by omega) fun s hs =>
        ((Runs.scanInv_range (fun i => missing (UInt32.ofNat i)) n).start s hs).1
  unfold missingRanges Runs.scan
  rw [key _ (Nat.le_refl _)]
  have hinv := Runs.scanInv_range (fun i => missing (UInt32.ofNat i)) total.toNat
  revert hinv
  rcases (List.range total.toNat).foldl (Runs.visit fun i => missing (UInt32.ofNat i)) (none, [])
    with ⟨o, rs⟩
  intro hinv
  cases o with
  | none => simp [sentinel, Runs.close]
  | some s =>
    obtain ⟨hs, -⟩ := hinv.start s rfl
    have hne : sentinel (some s) ≠ -1 := sentinel_eq_neg_one (by omega)
    have h1 : total - 1 = UInt32.ofNat (total.toNat - 1) := by
      apply UInt32.toNat_inj.mp
      simp only [UInt32.toNat_sub, UInt32.toNat_ofNat', show (1 : UInt32).toNat = 1 from rfl]
      omega
    simp only [bne_iff_ne, ne_eq, hne, not_false_eq_true, if_true, Runs.close, List.map_append,
      List.map_cons, List.map_nil, range32, h1]
    simp [sentinel]

/-! ## Slots -/

structure PacketNode where
  packetIndex : UInt32
  received : Bool := false
  valid : Bool := false
  data : Bytes := []
  deriving DecidableEq

/-- The slot holds a packet whose CRC-8 passed. -/
def PacketNode.ok (node : PacketNode) : Bool := node.received && node.valid

structure PacketList where
  totalPackets : UInt32 := 0
  validCount : UInt32 := 0
  index : List PacketNode := []
  deriving DecidableEq

namespace PacketList

/-- Free everything. -/
def clear (_ : PacketList) : PacketList := {}

/-- Allocate all nodes. There is memory for them; `tryInit` is the case where there may not be. -/
def init (_ : PacketList) (totalPackets : UInt32) : PacketList where
  totalPackets := totalPackets
  validCount := 0
  index := (List.range totalPackets.toNat).map fun i => { packetIndex := UInt32.ofNat i }

def insert (l : PacketList) (packetIndex : UInt32) (data : Bytes) (valid : Bool) :
    Bool × PacketList :=
  if packetIndex ≥ l.totalPackets then (false, l)
  else
    match l.index[packetIndex.toNat]? with
    | none => (false, l)
    | some node =>
      (true,
        { l with
          index := l.index.set packetIndex.toNat { node with received := true, valid, data }
          validCount :=
            if valid && !node.ok then l.validCount + 1
            else if !valid && node.ok then l.validCount - 1
            else l.validCount })

def isComplete (l : PacketList) : Bool := l.totalPackets > 0 && l.validCount == l.totalPackets

/-- Whether a slot needs retransmission. -/
def needsRetransmit (l : PacketList) (i : UInt32) : Bool :=
  match l.index[i.toNat]? with
  | some node => !node.received || !node.valid
  | none => true

def computeNakRanges (l : PacketList) : List (UInt32 × UInt32) :=
  missingRanges l.needsRetransmit l.totalPackets

/-- Concatenate all packets in order. -/
def assemble (l : PacketList) : Bytes := l.index.flatMap (·.data)

/-- One node per packet, and a counter that counts the valid ones. -/
structure Wf (l : PacketList) : Prop where
  length : l.index.length = l.totalPackets.toNat
  count : l.validCount.toNat = l.index.countP PacketNode.ok

theorem wf_empty : Wf {} := ⟨rfl, rfl⟩

theorem wf_init (l : PacketList) (n : UInt32) : Wf (l.init n) where
  length := by simp [init]
  count := by
    symm
    show List.countP _ _ = 0
    rw [List.countP_eq_zero]
    intro node hn
    obtain ⟨i, -, rfl⟩ := List.mem_map.mp hn
    simp [PacketNode.ok]

section

variable {l : PacketList}

theorem isComplete_iff_count : l.isComplete = true ↔
    0 < l.totalPackets.toNat ∧ l.validCount = l.totalPackets := by
  unfold isComplete
  rw [Bool.and_eq_true, decide_eq_true_eq, beq_iff_eq, gt_iff_lt, UInt32.lt_iff_toNat_lt]
  rfl

theorem Wf.isComplete_iff (h : Wf l) :
    l.isComplete = true ↔ 0 < l.totalPackets.toNat ∧ ∀ node ∈ l.index, node.ok = true := by
  rw [isComplete_iff_count, ← UInt32.toNat_inj, h.count, ← h.length, List.countP_eq_length]

theorem Wf.count_le (h : Wf l) : l.validCount.toNat ≤ l.totalPackets.toNat := by
  rw [h.count, ← h.length]; exact List.countP_le_length

theorem needsRetransmit_eq {i : UInt32} {node : PacketNode} (h : l.index[i.toNat]? = some node) :
    l.needsRetransmit i = !node.ok := by
  simp [needsRetransmit, h, PacketNode.ok, Bool.not_and]

/-- Out of range, an insert changes nothing. -/
theorem insert_out {pi : UInt32} (hpi : l.totalPackets.toNat ≤ pi.toNat) (data : Bytes)
    (valid : Bool) :
    l.insert pi data valid = (false, l) := by
  rw [insert, if_pos (UInt32.le_iff_toNat_le.mpr hpi)]

/-- In range, an insert writes its slot. -/
theorem Wf.insert_index (h : Wf l) (pi : UInt32) (hpi : pi.toNat < l.totalPackets.toNat) (data : Bytes)
    (valid : Bool) : ∃ node, l.index[pi.toNat]? = some node ∧
      (l.insert pi data valid).2.index =
        l.index.set pi.toNat { node with received := true, valid, data } ∧
      (l.insert pi data valid).2.totalPackets = l.totalPackets := by
  have hlt : pi.toNat < l.index.length := by rw [h.length]; exact hpi
  have hge : ¬ pi ≥ l.totalPackets := by
    rw [ge_iff_le, UInt32.le_iff_toNat_le]; omega
  refine ⟨_, List.getElem?_eq_getElem hlt, ?_, ?_⟩ <;>
    simp only [insert, if_neg hge, List.getElem?_eq_getElem hlt]

@[simp] theorem insert_totalPackets (pi : UInt32) (data : Bytes) (valid : Bool) :
    (l.insert pi data valid).2.totalPackets = l.totalPackets := by
  unfold insert
  split
  · rfl
  · split <;> rfl

theorem getElem?_init {total : UInt32} {i : Nat} (hi : i < total.toNat) :
    (l.init total).index[i]? = some { packetIndex := UInt32.ofNat i } := by
  rw [init, List.getElem?_map, List.getElem?_range hi]
  rfl

/-- A first packet completes a list only as its one slot. -/
theorem init_insert_complete (l : PacketList) (total pi : UInt32) (data : Bytes) (valid : Bool) :
    ((l.init total).insert pi data valid).2.isComplete = true ↔
      total = 1 ∧ pi = 0 ∧ valid = true := by
  have htotal : (l.init total).totalPackets = total := rfl
  rw [isComplete_iff_count, insert_totalPackets, htotal]
  by_cases hpi : pi.toNat < total.toNat
  · have hge : ¬ pi ≥ (l.init total).totalPackets := by
      rw [ge_iff_le, UInt32.le_iff_toNat_le, htotal]
      omega
    have hcount : ((l.init total).insert pi data valid).2.validCount = if valid then 1 else 0 := by
      rw [insert, if_neg hge, getElem?_init hpi]
      cases valid <;> rfl
    rw [hcount]
    constructor
    · rintro ⟨-, hvalid⟩
      cases valid with
      | false =>
        rw [← hvalid] at hpi
        exact absurd hpi (Nat.not_lt_zero _)
      | true =>
        have h1 : total = 1 := hvalid.symm
        subst h1
        have hlt : pi.toNat < 1 := hpi
        exact ⟨rfl, UInt32.toNat_inj.mp (Nat.lt_one_iff.mp hlt), rfl⟩
    · rintro ⟨rfl, -, rfl⟩
      exact ⟨by decide, rfl⟩
  · rw [insert_out (by rw [htotal]; omega)]
    refine iff_of_false ?_ ?_
    · rintro ⟨hpos, h0⟩
      rw [← h0] at hpos
      exact absurd hpos (Nat.lt_irrefl 0)
    · rintro ⟨rfl, rfl, -⟩
      exact hpi (by decide)

/-- An insert with a failed CRC-8 makes no slot valid. -/
theorem insert_invalid_slot {pi : UInt32} {data : Bytes} {q : Nat} {node : PacketNode}
    (hn : (l.insert pi data false).2.index[q]? = some node) (hok : node.ok = true) :
    l.index[q]? = some node := by
  unfold insert at hn
  split at hn
  · exact hn
  · split at hn
    · exact hn
    · next old hold =>
      have hlt := (List.getElem?_eq_some_iff.mp hold).1
      by_cases hq : pi.toNat = q
      · subst hq
        simp only [List.getElem?_set_self hlt] at hn
        cases hn
        cases hok
      · simpa only [List.getElem?_set_ne hq] using hn

/-- Inserting a packet again changes nothing. -/
theorem insert_insert (l : PacketList) (pi : UInt32) (data : Bytes) (valid : Bool) :
    ((l.insert pi data valid).2.insert pi data valid).2 = (l.insert pi data valid).2 := by
  unfold PacketList.insert
  by_cases hpi : pi ≥ l.totalPackets
  · simp only [if_pos hpi]
  simp only [if_neg hpi]
  cases hnode : l.index[pi.toNat]? with
  | none => simp only [if_neg hpi, hnode]
  | some node =>
    have hlt : pi.toNat < l.index.length := (List.getElem?_eq_some_iff.mp hnode).1
    simp only [if_neg hpi, List.getElem?_set_self hlt, List.set_set, PacketNode.ok, Bool.true_and,
      Bool.and_not_self, Bool.not_and_self, Bool.false_eq_true, if_false]

theorem Wf.insert (h : Wf l) (pi : UInt32) (data : Bytes) (valid : Bool) :
    Wf (l.insert pi data valid).2 := by
  by_cases hpi : l.totalPackets.toNat ≤ pi.toNat
  · rw [insert_out hpi]; exact h
  have hlt : pi.toNat < l.index.length := by rw [h.length]; omega
  have hge : ¬ pi ≥ l.totalPackets := by
    rw [ge_iff_le, UInt32.le_iff_toNat_le]; exact hpi
  have hc := h.count
  have hbound := l.totalPackets.toNat_lt
  have hle := h.count_le
  generalize hnode : l.index[pi.toNat] = node
  have hset (node' : PacketNode) : (l.index.set pi.toNat node').countP PacketNode.ok =
      l.index.countP PacketNode.ok - (if node.ok then 1 else 0) + (if node'.ok then 1 else 0) := by
    rw [List.countP_set hlt, hnode]
  have hpos : node.ok = true → 0 < l.index.countP PacketNode.ok := fun hok =>
    List.countP_pos_iff.mpr ⟨node, by rw [← hnode]; exact List.getElem_mem hlt, hok⟩
  have hfull : node.ok = false → l.index.countP PacketNode.ok < l.totalPackets.toNat := by
    intro hok
    rw [← h.length]
    refine Nat.lt_of_le_of_ne List.countP_le_length fun he => ?_
    have := List.countP_eq_length.mp he node (by rw [← hnode]; exact List.getElem_mem hlt)
    rw [hok] at this; cases this
  constructor
  · simp [PacketList.insert, hge, List.getElem?_eq_getElem hlt, h.length]
  · simp only [PacketList.insert, if_neg hge, List.getElem?_eq_getElem hlt, hnode, hset]
    have h1 : (1 : UInt32).toNat = 1 := rfl
    cases hv : valid <;> cases hok : node.ok <;>
      simp only [PacketNode.ok, Bool.and_true, Bool.and_false, Bool.not_true, Bool.not_false,
        if_true, if_false, Bool.false_eq_true, hc,
        UInt32.toNat_add, UInt32.toNat_sub, h1] <;>
      (try have := hpos hok) <;> (try have := hfull hok) <;> omega

/-- An insert with a failed CRC-8 completes no list. -/
theorem Wf.insert_invalid_incomplete (h : Wf l) (hc : l.isComplete = false) (pi : UInt32)
    (data : Bytes) : (l.insert pi data false).2.isComplete = false := by
  by_cases hpi : l.totalPackets.toNat ≤ pi.toNat
  · rw [insert_out hpi]
    exact hc
  obtain ⟨old, hold, hidx, -⟩ := h.insert_index pi (Nat.lt_of_not_le hpi) data false
  have hlt := (List.getElem?_eq_some_iff.mp hold).1
  by_contra hcomp
  obtain ⟨-, hall⟩ := (h.insert pi data false).isComplete_iff.mp (by simpa using hcomp)
  rw [hidx] at hall
  cases hall _ (List.mem_set hlt _)

/-- The ranges name slots of the list, and are no more than these. -/
theorem nakRanges_lt : l.computeNakRanges.length ≤ l.totalPackets.toNat ∧
    ∀ r ∈ l.computeNakRanges, r.2.toNat < l.totalPackets.toNat := by
  have hb := l.totalPackets.toNat_lt
  have hr := Runs.isRuns_scan (fun i => l.needsRetransmit (UInt32.ofNat i)) l.totalPackets.toNat
  rw [computeNakRanges, missingRanges_eq, List.length_map]
  refine ⟨hr.length_le, fun q hq => ?_⟩
  obtain ⟨r, hr', rfl⟩ := List.mem_map.mp hq
  have := hr.lt r hr'
  simp only [range32, UInt32.toNat_ofNat']
  omega

/-- The ranges increase and never touch. -/
theorem nakRanges_separated : l.computeNakRanges.Pairwise (fun r q => r.2.toNat + 1 < q.1.toNat) ∧
    ∀ r ∈ l.computeNakRanges, r.1.toNat ≤ r.2.toNat := by
  have hb := l.totalPackets.toNat_lt
  have hr := Runs.isRuns_scan (fun i => l.needsRetransmit (UInt32.ofNat i)) l.totalPackets.toNat
  have hnat : ∀ r ∈ Runs.scan (fun i => l.needsRetransmit (UInt32.ofNat i)) l.totalPackets.toNat,
      (range32 r).1.toNat = r.1 ∧ (range32 r).2.toNat = r.2 := by
    intro r hmem
    have h1 := hr.proper r hmem
    have h2 := hr.lt r hmem
    simp only [range32, UInt32.toNat_ofNat']
    omega
  rw [computeNakRanges, missingRanges_eq]
  constructor
  · rw [List.pairwise_map]
    refine hr.separated.imp_of_mem fun ha hb' hsep => ?_
    rw [(hnat _ ha).2, (hnat _ hb').1]
    exact hsep
  · intro q hq
    obtain ⟨r, hmem, rfl⟩ := List.mem_map.mp hq
    rw [(hnat r hmem).1, (hnat r hmem).2]
    exact hr.proper r hmem

/-- The ranges to retransmit cover exactly the slots that are not valid. -/
theorem Wf.covered_nakRanges (h : Wf l) (i : Nat) :
    (∃ r ∈ l.computeNakRanges, r.1.toNat ≤ i ∧ i ≤ r.2.toNat) ↔
      ∃ node, l.index[i]? = some node ∧ node.ok = false := by
  have hb := l.totalPackets.toNat_lt
  have hr := Runs.isRuns_scan (fun i => l.needsRetransmit (UInt32.ofNat i)) l.totalPackets.toNat
  have hnat (r : Nat × Nat) (hr' : r ∈ Runs.scan (fun i => l.needsRetransmit (UInt32.ofNat i))
      l.totalPackets.toNat) : r.1 < 2 ^ 32 ∧ r.2 < 2 ^ 32 := by
    have h1 := hr.proper r hr'
    have h2 := ((hr.covered r.2).mp ⟨r, hr', h1, Nat.le_refl _⟩).1
    omega
  have hcov : (∃ r ∈ l.computeNakRanges, r.1.toNat ≤ i ∧ i ≤ r.2.toNat) ↔
      Runs.Covered (Runs.scan (fun i => l.needsRetransmit (UInt32.ofNat i)) l.totalPackets.toNat) i := by
    simp only [computeNakRanges, missingRanges_eq, List.mem_map, Runs.Covered]
    constructor
    · rintro ⟨_, ⟨r, hr', rfl⟩, h1, h2⟩
      obtain ⟨b1, b2⟩ := hnat r hr'
      simp only [range32, UInt32.toNat_ofNat', Nat.mod_eq_of_lt b1, Nat.mod_eq_of_lt b2] at h1 h2
      exact ⟨r, hr', h1, h2⟩
    · rintro ⟨r, hr', h1, h2⟩
      obtain ⟨b1, b2⟩ := hnat r hr'
      refine ⟨_, ⟨r, hr', rfl⟩, ?_⟩
      simp only [range32, UInt32.toNat_ofNat', Nat.mod_eq_of_lt b1, Nat.mod_eq_of_lt b2]
      exact ⟨h1, h2⟩
  rw [hcov, hr.covered]
  constructor
  · rintro ⟨hi, hm⟩
    have hlt : i < l.index.length := by rw [h.length]; exact hi
    refine ⟨_, List.getElem?_eq_getElem hlt, ?_⟩
    have hi' : (UInt32.ofNat i).toNat = i := by
      rw [UInt32.toNat_ofNat', Nat.mod_eq_of_lt (by omega)]
    rw [needsRetransmit_eq (by rw [hi', List.getElem?_eq_getElem hlt])] at hm
    simpa using hm
  · rintro ⟨node, hn, hok⟩
    obtain ⟨hlt, -⟩ := List.getElem?_eq_some_iff.mp hn
    rw [h.length] at hlt
    refine ⟨hlt, ?_⟩
    have hi' : (UInt32.ofNat i).toNat = i := by
      rw [UInt32.toNat_ofNat', Nat.mod_eq_of_lt (by omega)]
    rw [needsRetransmit_eq (by rw [hi']; exact hn), hok]; rfl

end

end PacketList

end Cfdp
