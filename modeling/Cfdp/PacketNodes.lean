import Cfdp.Lib.Heap
import Cfdp.PacketList

/-!
# The packet list in memory

`PacketList` of `PacketList.cpp` as it lies in memory: nodes on a heap, linked both
ways between `head_` and `tail_`, and the array `index_` of pointers to them. An
operation has no result (`none`) if it follows a null or freed pointer, leaves
`index_`, or walks along links that do not end.

`Rep` says which `PacketList` of slots an object represents. Every operation keeps
it, so the slots can be used in its place, and those are an array (`Slots`) of last
inserts.
-/

namespace Cfdp

/-- `PacketNode` with its links. -/
structure LinkedNode extends PacketNode where
  prev : Ptr := none
  next : Ptr := none
  deriving DecidableEq

structure LinkedList where
  heap : Heap LinkedNode := []
  head : Ptr := none
  tail : Ptr := none
  totalPackets : UInt32 := 0
  validCount : UInt32 := 0
  index : List Ptr := []
  deriving DecidableEq

namespace LinkedList

/-- The loop of `clear`; `fuel` bounds its rounds. -/
def freeNodes : Nat → Heap LinkedNode → Ptr → Option (Heap LinkedNode)
  | 0, _, _ => none
  | _ + 1, h, none => some h
  | fuel + 1, h, some cur =>
    match h.deref (some cur), h.free (some cur) with
    | some node, some h => freeNodes fuel h node.next
    | _, _ => none

def clear (l : LinkedList) : Option LinkedList :=
  (freeNodes (l.heap.length + 1) l.heap l.head).map fun h => { heap := h }

/-- Append `node` to the links. -/
def link (l : LinkedList) (node : Ptr) : Option LinkedList :=
  if l.head = none then some { l with head := node, tail := node }
  else
    match l.heap.deref l.tail with
    | none => none
    | some last =>
      match l.heap.store l.tail { last with next := node } with
      | none => none
      | some h =>
        match h.deref node with
        | none => none
        | some x => (h.store node { x with prev := l.tail }).map fun h =>
          { l with heap := h, tail := node }

/-- One round of the loop of `init`: a new node, its links, its place in `index_`. -/
def addNode (l : LinkedList) (i : Nat) : Option LinkedList :=
  match link { l with heap := l.heap ++ [some { packetIndex := UInt32.ofNat i }] }
      (some l.heap.length) with
  | none => none
  | some l' =>
    if i < l'.index.length then some { l' with index := l'.index.set i (some l.heap.length) } else none

def init (l : LinkedList) (totalPackets : UInt32) : Option LinkedList :=
  match l.clear with
  | none => none
  | some l =>
    (List.range totalPackets.toNat).foldlM addNode { l with
      totalPackets := totalPackets
      validCount := 0
      index := List.replicate totalPackets.toNat none }

def insert (l : LinkedList) (packetIndex : UInt32) (data : Bytes) (valid : Bool) :
    Option (Bool × LinkedList) :=
  if packetIndex ≥ l.totalPackets then some (false, l)
  else
    match l.index[packetIndex.toNat]? with
    | none => none
    | some none => some (false, l)
    | some (some a) =>
      match l.heap.deref (some a) with
      | none => none
      | some node =>
        (l.heap.store (some a) { node with received := true, valid, data }).map fun h =>
          (true,
            { l with
              heap := h
              validCount :=
                if valid && !node.ok then l.validCount + 1
                else if !valid && node.ok then l.validCount - 1
                else l.validCount })

def isComplete (l : LinkedList) : Bool := l.totalPackets > 0 && l.validCount == l.totalPackets

/-- `!node->received || !node->valid` for slot `i`. -/
def needsRetransmit (l : LinkedList) (i : Nat) : Option Bool :=
  match l.index[i]? with
  | none => none
  | some p => (l.heap.deref p).map fun node => !node.received || !node.valid

def computeNakRanges (l : LinkedList) : Option (List (UInt32 × UInt32)) :=
  ((List.range l.totalPackets.toNat).foldlM
      (fun st i => (l.needsRetransmit i).map fun missing => scanRange (fun _ => missing) st i)
      (-1, [])).map fun st =>
    if st.1 != -1 then st.2 ++ [(st.1.toUInt32, l.totalPackets - 1)] else st.2

/-- The loop of `assemble`. -/
def gather : Nat → Heap LinkedNode → Ptr → Option Bytes
  | 0, _, _ => none
  | _ + 1, _, none => some []
  | fuel + 1, h, some cur =>
    match h.deref (some cur) with
    | none => none
    | some node => (gather fuel h node.next).map fun rest => node.data ++ rest

def assemble (l : LinkedList) : Option Bytes := gather (l.heap.length + 1) l.heap l.head

/-- The nodes met from `head_` along `next`, with their addresses. -/
def nodes (l : LinkedList) : Option (List (Nat × LinkedNode)) :=
  Heap.walk LinkedNode.next l.heap (l.heap.length + 1) l.head

/-! ## What an object represents -/

/-- The cells `cs` are the nodes of `l`, in order, and hold the slots of `p`; no other node is
allocated. -/
structure Rep (l : LinkedList) (cs : List (Nat × LinkedNode)) (p : PacketList) : Prop where
  total : l.totalPackets = p.totalPackets
  count : l.validCount = p.validCount
  chain : Heap.Chain LinkedNode.next l.heap l.head cs
  prev : ∀ (i : Nat) (c : Nat × LinkedNode), cs[i]? = some c →
    c.2.prev = if i = 0 then none else cs[i - 1]?.map Prod.fst
  tail : l.tail = cs.getLast?.map Prod.fst
  index : l.index = cs.map fun c => some c.1
  nodup : (cs.map Prod.fst).Nodup
  slots : cs.map (fun c => c.2.toPacketNode) = p.index
  live : ∀ a x, l.heap.deref (some a) = some x → a ∈ cs.map Prod.fst

section

variable {l : LinkedList} {cs : List (Nat × LinkedNode)} {p : PacketList}

theorem rep_empty : Rep {} [] {} where
  total := rfl
  count := rfl
  chain := rfl
  prev := by simp
  tail := rfl
  index := rfl
  nodup := List.nodup_nil
  slots := rfl
  live a x h := by simp [Heap.deref] at h

/-- The walks along the links end. -/
theorem Rep.fuel (h : Rep l cs p) : cs.length < l.heap.length + 1 :=
  Nat.lt_succ_of_le (h.chain.length_le h.nodup)

theorem Rep.nodes (h : Rep l cs p) : l.nodes = some cs := h.chain.walk h.fuel

/-! ## Freeing -/

/-- `clear` frees the nodes of the chain and no others. -/
theorem freeNodes_eq {h : Heap LinkedNode} {q : Ptr} (hc : Heap.Chain LinkedNode.next h q cs)
    (hn : (cs.map Prod.fst).Nodup) {fuel : Nat} (hf : cs.length < fuel) :
    ∃ h', freeNodes fuel h q = some h' ∧ h'.length = h.length ∧
      ∀ a x, h'.deref (some a) = some x → h.deref (some a) = some x ∧ a ∉ cs.map Prod.fst := by
  induction cs generalizing h q fuel with
  | nil =>
    obtain ⟨fuel, rfl⟩ := Nat.exists_eq_add_one.mpr (Nat.zero_lt_of_lt hf)
    rw [show q = none from hc]
    exact ⟨h, rfl, rfl, fun a x hx => ⟨hx, by simp⟩⟩
  | cons c cs ih =>
    obtain ⟨rfl, hd, hrest⟩ := hc
    obtain ⟨fuel, rfl⟩ := Nat.exists_eq_add_one.mpr (Nat.zero_lt_of_lt hf)
    rw [List.map_cons, List.nodup_cons] at hn
    obtain ⟨h', hrun, hlen, hlive⟩ := @ih _ _ (hrest.frame hn.1 none) hn.2 fuel (by simpa using hf)
    refine ⟨h', ?_, by rw [hlen, List.length_set], fun a x hx => ?_⟩
    · unfold freeNodes
      rw [hd, Heap.free_eq hd]
      exact hrun
    · obtain ⟨hset, hmem⟩ := hlive a x hx
      have hne : c.1 ≠ a := by
        rintro rfl
        rw [Heap.deref_eq_some, List.getElem?_set_self (Heap.lt_of_deref hd)] at hset
        cases hset
      rw [Heap.deref_set_of_ne hne] at hset
      refine ⟨hset, ?_⟩
      rw [List.map_cons, List.mem_cons, not_or]
      exact ⟨fun he => hne he.symm, hmem⟩

/-- After `clear` nothing is allocated. -/
theorem Rep.clear (h : Rep l cs p) : ∃ l', l.clear = some l' ∧ Rep l' [] p.clear ∧
    l' = { heap := l'.heap } := by
  obtain ⟨h', hrun, -, hlive⟩ := freeNodes_eq h.chain h.nodup h.fuel
  refine ⟨{ heap := h' }, ?_, ?_, rfl⟩
  · rw [LinkedList.clear, hrun]
    rfl
  · exact { rep_empty with
      chain := rfl
      live := fun a x hx => by
        obtain ⟨hx', hmem⟩ := hlive a x hx
        exact absurd (h.live a x hx') hmem }

end

/-! ## Building -/

/-- Node `i` of `k` linked nodes that start at address `base`. -/
def chained (base k i : Nat) : LinkedNode where
  packetIndex := UInt32.ofNat i
  prev := if i = 0 then none else some (base + (i - 1))
  next := if i + 1 < k then some (base + (i + 1)) else none

/-- The object after `k` rounds of the loop of `init`, over a heap `h`. -/
def built (h : Heap LinkedNode) (total : UInt32) (k : Nat) : LinkedList where
  heap := h ++ (List.range k).map fun i => some (chained h.length k i)
  head := if k = 0 then none else some h.length
  tail := if k = 0 then none else some (h.length + (k - 1))
  totalPackets := total
  validCount := 0
  index := (List.range k).map (fun i => some (h.length + i)) ++
    List.replicate (total.toNat - k) none

section

variable {h : Heap LinkedNode} {total : UInt32} {k : Nat}

theorem getElem?_built (h : Heap LinkedNode) (total : UInt32) (k i : Nat) :
    (built h total k).heap[h.length + i]? =
      if i < k then some (some (chained h.length k i)) else none := by
  unfold built
  rw [List.getElem?_append_right (by omega), Nat.add_sub_cancel_left, List.getElem?_map]
  by_cases hi : i < k
  · rw [if_pos hi, List.getElem?_range hi]
    rfl
  · rw [if_neg hi, List.getElem?_eq_none (by rw [List.length_range]; omega)]
    rfl

@[simp] theorem length_built (h : Heap LinkedNode) (total : UInt32) (k : Nat) :
    (built h total k).heap.length = h.length + k := by
  simp [built]

/-- The node `init` allocates. -/
def newNode (i : Nat) : LinkedNode := { packetIndex := UInt32.ofNat i }

/-- The links of one more node. -/
theorem heap_built_succ (h : Heap LinkedNode) (total : UInt32) (k : Nat) :
    (((built h total (k + 1)).heap ++ [some (newNode (k + 1))]).set (h.length + k)
        (some { chained h.length (k + 1) k with next := some (h.length + (k + 1)) })).set
      (h.length + (k + 1)) (some { newNode (k + 1) with prev := some (h.length + k) }) =
      (built h total (k + 2)).heap := by
  have hlen := length_built h total (k + 1)
  apply List.ext_getElem?
  intro j
  by_cases hj : j < h.length
  · rw [List.getElem?_set_ne (by omega), List.getElem?_set_ne (by omega),
      List.getElem?_append_left (by omega), built, built, List.getElem?_append_left hj,
      List.getElem?_append_left hj]
  obtain ⟨i, rfl⟩ : ∃ i, j = h.length + i := ⟨j - h.length, by omega⟩
  rw [getElem?_built]
  rcases Nat.lt_trichotomy i k with hi | rfl | hi
  · -- an earlier node keeps its links
    rw [List.getElem?_set_ne (by omega), List.getElem?_set_ne (by omega),
      List.getElem?_append_left (by omega), getElem?_built, if_pos (by omega), if_pos (by omega)]
    have hnext : i + 1 < k + 1 := by omega
    simp only [chained, hnext, if_true, show i + 1 < k + 2 by omega]
  · have hin : h.length + i < ((built h total (i + 1)).heap ++ [some (newNode (i + 1))]).length := by
      rw [List.length_append, length_built]
      omega
    rw [List.getElem?_set_ne (by omega), List.getElem?_set_self hin, if_pos (by omega)]
    simp [chained]
  · by_cases hi' : i = k + 1
    · subst hi'
      rw [List.getElem?_set_self (by simp), if_pos (by omega)]
      simp [chained, newNode]
    · rw [List.getElem?_set_ne (by omega), List.getElem?_set_ne (by omega),
        List.getElem?_eq_none (by simp; omega), if_neg (by omega)]

/-- The place of one more node in `index_`. -/
theorem index_built_succ (h : Heap LinkedNode) (hk : k < total.toNat) :
    (built h total k).index.set k (some (h.length + k)) = (built h total (k + 1)).index := by
  have hlen : ((List.range k).map fun i => (some (h.length + i) : Ptr)).length = k := by simp
  obtain ⟨m, hm⟩ : ∃ m, total.toNat - k = m + 1 := ⟨total.toNat - k - 1, by omega⟩
  simp only [built]
  rw [List.set_append_right _ _ (by omega), hlen, Nat.sub_self, hm, List.replicate_succ,
    List.set_cons_zero, List.range_succ, List.map_append, List.append_assoc,
    show total.toNat - (k + 1) = m by omega]
  rfl

/-- One round of the loop of `init`. -/
theorem addNode_built (hk : k < total.toNat) :
    addNode (built h total k) k = some (built h total (k + 1)) := by
  have hidx := index_built_succ h hk
  have hlt : k < (built h total k).index.length := by simp [built]; omega
  cases k with
  | zero =>
    simp only [addNode, link, length_built, Nat.add_zero, show (built h total 0).head = none from rfl,
      if_true, if_pos hlt, Option.some.injEq]
    rw [Nat.add_zero] at hidx
    rw [hidx]
    simp [built, chained]
  | succ k =>
    have hlast : Heap.deref ((built h total (k + 1)).heap ++ [some (newNode (k + 1))])
        (some (h.length + k)) = some (chained h.length (k + 1) k) := by
      rw [Heap.deref_eq_some, List.getElem?_append_left (by rw [length_built]; omega), getElem?_built,
        if_pos (by omega)]
    have hnew (x : LinkedNode) : Heap.deref
        (((built h total (k + 1)).heap ++ [some (newNode (k + 1))]).set (h.length + k) (some x))
        (some (h.length + (k + 1))) = some (newNode (k + 1)) := by
      rw [Heap.deref_set_of_ne (by omega), Heap.deref_eq_some,
        List.getElem?_append_right (by rw [length_built]), length_built, Nat.sub_self]
      rfl
    have htail : (built h total (k + 1)).tail = some (h.length + k) := rfl
    have hhead : (built h total (k + 1)).head ≠ none := by simp [built]
    have hlink : link { built h total (k + 1) with
          heap := (built h total (k + 1)).heap ++ [some (newNode (k + 1))] }
        (some (h.length + (k + 1))) = some { built h total (k + 1) with
          heap := (built h total (k + 2)).heap
          tail := some (h.length + (k + 1)) } := by
      simp only [link, if_neg hhead, htail, hlast, Heap.store_eq hlast, hnew, Heap.store_eq (hnew _),
        Option.map_some, heap_built_succ]
    unfold addNode
    rw [length_built]
    show (match link { built h total (k + 1) with
          heap := (built h total (k + 1)).heap ++ [some (newNode (k + 1))] } _ with
      | none => none
      | some l' => _) = _
    rw [hlink]
    simp only [if_pos hlt, hidx]
    simp [built]

theorem foldlM_addNode (h : Heap LinkedNode) {n : Nat} (hn : n ≤ total.toNat) :
    (List.range n).foldlM addNode (built h total 0) = some (built h total n) := by
  induction n with
  | zero => rfl
  | succ n ih =>
    rw [List.range_succ, List.foldlM_append, ih (by omega)]
    show (List.foldlM addNode (built h total n) [n]) = _
    rw [List.foldlM_cons, addNode_built (by omega)]
    rfl

/-- The cells of the nodes built. -/
def builtCells (base n : Nat) : List (Nat × LinkedNode) :=
  (List.range n).map fun i => (base + i, chained base n i)

@[simp] theorem length_builtCells (base n : Nat) : (builtCells base n).length = n := by
  simp [builtCells]

theorem map_fst_builtCells (base n : Nat) :
    (builtCells base n).map Prod.fst = (List.range n).map fun i => base + i := by
  simp [builtCells]

theorem getElem?_builtCells {base n i : Nat} (hi : i < n) :
    (builtCells base n)[i]? = some (base + i, chained base n i) := by
  unfold builtCells
  rw [List.getElem?_map, List.getElem?_range hi]
  rfl

theorem builtCells_out {base n i : Nat} (hi : ¬ i < n) : (builtCells base n)[i]? = none :=
  List.getElem?_eq_none (by rw [length_builtCells]; omega)

/-- Cell `i` of the nodes built. -/
theorem of_builtCells {base n i : Nat} {c : Nat × LinkedNode}
    (hc : (builtCells base n)[i]? = some c) : i < n ∧ c = (base + i, chained base n i) := by
  by_cases hi : i < n
  · rw [getElem?_builtCells hi] at hc
    cases hc
    exact ⟨hi, rfl⟩
  · rw [builtCells_out hi] at hc
    cases hc

/-- The links of the nodes built. -/
theorem chain_built (h : Heap LinkedNode) (total : UInt32) (n : Nat) :
    Heap.Chain LinkedNode.next (built h total n).heap (built h total n).head
      (builtCells h.length n) := by
  apply Heap.chain_of_cells
  · rw [List.head?_eq_getElem?]
    by_cases hz : 0 < n
    · rw [getElem?_builtCells hz]
      exact if_neg (by omega)
    · rw [builtCells_out hz]
      exact if_pos (by omega)
  · intro i c hc
    obtain ⟨hi, rfl⟩ := of_builtCells hc
    refine ⟨?_, ?_⟩
    · rw [Heap.deref_eq_some, getElem?_built, if_pos hi]
    · by_cases hi' : i + 1 < n
      · rw [getElem?_builtCells hi']
        exact if_pos hi'
      · rw [builtCells_out hi']
        exact if_neg hi'

/-- A list built on a heap without nodes. -/
theorem rep_built (hlive : ∀ a x, h.deref (some a) ≠ some x) :
    Rep (built h total total.toNat) (builtCells h.length total.toNat) (PacketList.init {} total) where
  total := rfl
  count := rfl
  chain := chain_built h total total.toNat
  prev := by
    intro i c hc
    obtain ⟨hi, rfl⟩ := of_builtCells hc
    rw [getElem?_builtCells (show i - 1 < total.toNat by omega)]
    rfl
  tail := by
    rw [List.getLast?_eq_getElem?, length_builtCells]
    by_cases hz : total.toNat = 0
    · rw [builtCells_out (by omega)]
      exact if_pos hz
    · rw [getElem?_builtCells (by omega)]
      exact if_neg hz
  index := by simp [built, builtCells]
  nodup := by
    rw [map_fst_builtCells]
    exact List.Nodup.map (fun i j hij => Nat.add_left_cancel hij) List.nodup_range
  slots := by simp [builtCells, PacketList.init, chained]
  live := by
    intro a x hx
    rw [Heap.deref_eq_some] at hx
    by_cases ha : a < h.length
    · unfold built at hx
      rw [List.getElem?_append_left ha, ← Heap.deref_eq_some] at hx
      exact absurd hx (hlive a x)
    · obtain ⟨i, rfl⟩ : ∃ i, a = h.length + i := ⟨a - h.length, by omega⟩
      rw [getElem?_built] at hx
      split at hx
      · next hi => exact List.mem_map.mpr ⟨_, List.mem_of_getElem? (getElem?_builtCells hi), rfl⟩
      · cases hx

variable {l : LinkedList} {cs : List (Nat × LinkedNode)} {p : PacketList}

/-- `init` builds a new list. -/
theorem Rep.init (hr : Rep l cs p) (total : UInt32) :
    ∃ l' cs', l.init total = some l' ∧ Rep l' cs' (p.init total) := by
  obtain ⟨l₁, hclear, hrep, heq⟩ := hr.clear
  refine ⟨_, _, ?_, rep_built fun a x hx => absurd (hrep.live a x hx) (by simp)⟩
  rw [LinkedList.init, hclear]
  refine Eq.trans ?_ (foldlM_addNode l₁.heap (Nat.le_refl _))
  rw [heq]
  simp [built]

/-! ## Inserting -/

/-- Slot `i` and its cell. -/
theorem Rep.cell (hr : Rep l cs p) {i : Nat} {node : PacketNode} (hi : p.index[i]? = some node) :
    ∃ c, cs[i]? = some c ∧ c.2.toPacketNode = node ∧ l.index[i]? = some (some c.1) ∧
      l.heap.deref (some c.1) = some c.2 := by
  rw [← hr.slots, List.getElem?_map, Option.map_eq_some_iff] at hi
  obtain ⟨c, hc, hnode⟩ := hi
  refine ⟨c, hc, hnode, ?_, hr.chain.deref (List.mem_of_getElem? hc)⟩
  rw [hr.index, List.getElem?_map, hc]
  rfl

/-- A new payload for node `x` of slot `i`. -/
theorem Rep.update (hr : Rep l cs p) {i a : Nat} {x : LinkedNode} (hc : cs[i]? = some (a, x))
    (node : PacketNode) (count : UInt32) :
    Rep { l with heap := l.heap.set a (some { x with toPacketNode := node }), validCount := count }
      (cs.set i (a, { x with toPacketNode := node }))
      { p with index := p.index.set i node, validCount := count } := by
  have hfst (j : Nat) : ((cs.set i (a, { x with toPacketNode := node }))[j]?).map Prod.fst =
      (cs[j]?).map Prod.fst := by
    by_cases hij : i = j
    · subst hij
      rw [List.getElem?_set_self (List.getElem?_eq_some_iff.mp hc).1, hc]
      rfl
    · rw [List.getElem?_set_ne hij]
  have hmap : (cs.set i (a, { x with toPacketNode := node })).map Prod.fst = cs.map Prod.fst :=
    List.ext_getElem? fun j => by rw [List.getElem?_map, List.getElem?_map, hfst]
  constructor
  · exact hr.total
  · rfl
  · exact hr.chain.update hr.nodup hc rfl
  · intro j c hj
    rw [hfst]
    by_cases hij : i = j
    · subst hij
      rw [List.getElem?_set_self (List.getElem?_eq_some_iff.mp hc).1] at hj
      cases hj
      exact hr.prev i (a, x) hc
    · rw [List.getElem?_set_ne hij] at hj
      exact hr.prev j c hj
  · rw [List.getLast?_eq_getElem?, hfst, List.length_set, ← List.getLast?_eq_getElem?]
    exact hr.tail
  · have hsome (ds : List (Nat × LinkedNode)) : (ds.map fun c => (some c.1 : Ptr)) =
        (ds.map Prod.fst).map some := by rw [List.map_map]; rfl
    rw [hsome, hmap, ← hsome]
    exact hr.index
  · rw [hmap]
    exact hr.nodup
  · rw [List.map_set, hr.slots]
  · intro b y hy
    rw [hmap]
    by_cases hab : a = b
    · subst hab
      exact List.mem_map.mpr ⟨_, List.mem_of_getElem? hc, rfl⟩
    · rw [Heap.deref_set_of_ne hab] at hy
      exact hr.live b y hy

/-- `insert` writes the payload of one node and leaves the links alone. -/
theorem Rep.insert (hr : Rep l cs p) (hp : p.Wf) (pi : UInt32) (data : Bytes) (valid : Bool) :
    ∃ l' cs', l.insert pi data valid = some ((p.insert pi data valid).1, l') ∧
      Rep l' cs' (p.insert pi data valid).2 := by
  unfold LinkedList.insert PacketList.insert
  rw [hr.total]
  by_cases hpi : pi ≥ p.totalPackets
  · rw [if_pos hpi, if_pos hpi]
    exact ⟨l, cs, rfl, hr⟩
  rw [if_neg hpi, if_neg hpi]
  have hlt : pi.toNat < p.index.length := by
    rw [ge_iff_le, UInt32.le_iff_toNat_le] at hpi
    rw [hp.length]
    omega
  obtain ⟨⟨a, x⟩, hc, hx, hidx, hd⟩ := hr.cell (List.getElem?_eq_getElem hlt)
  have hupd := hr.update hc { x.toPacketNode with received := true, valid, data }
  simp only [hidx, hd, Heap.store_eq hd, Option.map_some, List.getElem?_eq_getElem hlt, ← hx, hr.count]
  exact ⟨_, _, rfl, hr.total ▸ hupd _⟩

/-! ## Reading -/

theorem isComplete_eq (hr : Rep l cs p) : l.isComplete = p.isComplete := by
  unfold LinkedList.isComplete
  rw [PacketList.isComplete, hr.total, hr.count]

theorem gather_eq {h : Heap LinkedNode} {q : Ptr} (hc : Heap.Chain LinkedNode.next h q cs) {fuel : Nat}
    (hf : cs.length < fuel) : gather fuel h q = some (cs.flatMap fun c => c.2.data) := by
  induction cs generalizing q fuel with
  | nil =>
    obtain ⟨fuel, rfl⟩ := Nat.exists_eq_add_one.mpr (Nat.zero_lt_of_lt hf)
    rw [show q = none from hc]
    rfl
  | cons c cs ih =>
    obtain ⟨rfl, hd, hrest⟩ := hc
    obtain ⟨fuel, rfl⟩ := Nat.exists_eq_add_one.mpr (Nat.zero_lt_of_lt hf)
    unfold gather
    rw [hd]
    simp only [ih hrest (by simpa using hf), Option.map_some, List.flatMap_cons]

theorem Rep.assemble (hr : Rep l cs p) : l.assemble = some p.assemble := by
  rw [LinkedList.assemble, gather_eq hr.chain hr.fuel, PacketList.assemble, ← hr.slots,
    List.flatMap_map]

/-- A loop whose rounds all have a result. -/
theorem foldlM_eq_some {α β : Type} {f : β → α → Option β} {g : β → α → β} {xs : List α}
    (h : ∀ b, ∀ x ∈ xs, f b x = some (g b x)) (b : β) : xs.foldlM f b = some (xs.foldl g b) := by
  induction xs generalizing b with
  | nil => rfl
  | cons x xs ih =>
    rw [List.foldlM_cons, h b x List.mem_cons_self]
    exact ih (fun b y hy => h b y (List.mem_cons_of_mem _ hy)) (g b x)

theorem Rep.needsRetransmit (hr : Rep l cs p) (hp : p.Wf) {i : Nat} (hi : i < p.totalPackets.toNat) :
    l.needsRetransmit i = some (p.needsRetransmit (UInt32.ofNat i)) := by
  have hi' : (UInt32.ofNat i).toNat = i := by
    have := p.totalPackets.toNat_lt
    rw [UInt32.toNat_ofNat', Nat.mod_eq_of_lt (by omega)]
  obtain ⟨c, -, hnode, hidx, hd⟩ := hr.cell (List.getElem?_eq_getElem (hp.length ▸ hi))
  rw [LinkedList.needsRetransmit, hidx]
  simp only [hd, Option.map_some, PacketList.needsRetransmit, hi',
    List.getElem?_eq_getElem (hp.length ▸ hi), ← hnode]

theorem Rep.computeNakRanges (hr : Rep l cs p) (hp : p.Wf) :
    l.computeNakRanges = some p.computeNakRanges := by
  rw [LinkedList.computeNakRanges, hr.total]
  rw [foldlM_eq_some (g := scanRange p.needsRetransmit) fun st i hi => by
    rw [hr.needsRetransmit hp (List.mem_range.mp hi)]
    rfl]
  rfl

end

end LinkedList

/-! ## Calls -/

/-- A call that changes a packet list. -/
inductive ListCall where
  | init (totalPackets : UInt32)
  | clear
  | insert (packetIndex : UInt32) (data : Bytes) (valid : Bool)

def LinkedList.call (l : LinkedList) : ListCall → Option LinkedList
  | .init totalPackets => l.init totalPackets
  | .clear => l.clear
  | .insert packetIndex data valid => (l.insert packetIndex data valid).map Prod.snd

/-- A new object after a sequence of calls. -/
def LinkedList.calls (cs : List ListCall) : Option LinkedList := cs.foldlM LinkedList.call {}

def PacketList.call (p : PacketList) : ListCall → PacketList
  | .init totalPackets => p.init totalPackets
  | .clear => p.clear
  | .insert packetIndex data valid => (p.insert packetIndex data valid).2

def PacketList.calls (cs : List ListCall) : PacketList := cs.foldl PacketList.call {}

/-- An array of slots, each with its last insert. -/
structure Slots where
  size : Nat
  slot : Nat → Option (Bytes × Bool)

namespace Slots

def empty (size : Nat) : Slots := ⟨size, fun _ => none⟩

def call (s : Slots) : ListCall → Slots
  | .init totalPackets => empty totalPackets.toNat
  | .clear => empty 0
  | .insert packetIndex data valid =>
    if packetIndex.toNat < s.size then
      { s with slot := fun i => if i = packetIndex.toNat then some (data, valid) else s.slot i }
    else s

def calls (cs : List ListCall) : Slots := cs.foldl call (empty 0)

/-- Slot `i` of a packet list. -/
def node (s : Slots) (i : Nat) : PacketNode :=
  match s.slot i with
  | none => { packetIndex := UInt32.ofNat i }
  | some (data, valid) => { packetIndex := UInt32.ofNat i, received := true, valid, data }

@[simp] theorem node_packetIndex (s : Slots) (i : Nat) : (s.node i).packetIndex = UInt32.ofNat i := by
  unfold node
  split <;> rfl

/-- The packet list holds the slots. -/
structure Models (s : Slots) (p : PacketList) : Prop where
  size : p.totalPackets.toNat = s.size
  index : p.index = (List.range s.size).map s.node
  wf : p.Wf

variable {s : Slots} {p : PacketList}

theorem models_init (p : PacketList) (total : UInt32) : (empty total.toNat).Models (p.init total) :=
  ⟨rfl, rfl, PacketList.wf_init p total⟩

theorem Models.getElem? (h : s.Models p) {i : Nat} (hi : i < s.size) :
    p.index[i]? = some (s.node i) := by
  rw [h.index, List.getElem?_map, List.getElem?_range hi]
  rfl

theorem Models.insert (h : s.Models p) (pi : UInt32) (data : Bytes) (valid : Bool) :
    (s.call (.insert pi data valid)).Models (p.insert pi data valid).2 := by
  simp only [Slots.call]
  by_cases hpi : pi.toNat < s.size
  · rw [if_pos hpi]
    obtain ⟨old, hold, hidx, htotal⟩ := h.wf.insert_index pi (h.size ▸ hpi) data valid
    refine ⟨htotal.symm ▸ h.size, ?_, h.wf.insert pi data valid⟩
    rw [h.getElem? hpi, Option.some.injEq] at hold
    rw [hidx, h.index, ← hold, node_packetIndex]
    apply List.ext_getElem?
    intro i
    by_cases hi : i = pi.toNat
    · subst hi
      rw [List.getElem?_set_self (by simpa using hpi), List.getElem?_map, List.getElem?_range hpi]
      simp [node]
    · rw [List.getElem?_set_ne (Ne.symm hi), List.getElem?_map, List.getElem?_map]
      by_cases hlt : i < s.size
      · rw [List.getElem?_range hlt]
        simp [node, hi]
      · rw [List.getElem?_eq_none (by rw [List.length_range]; omega)]
        rfl
  · rw [if_neg hpi, PacketList.insert_out (by rw [h.size]; omega)]
    exact h

theorem Models.call (h : s.Models p) (c : ListCall) : (s.call c).Models (p.call c) := by
  cases c with
  | init total => exact models_init p total
  | clear => exact ⟨rfl, rfl, PacketList.wf_empty⟩
  | insert pi data valid => exact h.insert pi data valid

/-- A run of the packet list is a run of the array. -/
theorem models_calls (cs : List ListCall) : (calls cs).Models (PacketList.calls cs) := by
  have key : ∀ (s : Slots) (p : PacketList), s.Models p →
      (cs.foldl Slots.call s).Models (cs.foldl PacketList.call p) := by
    induction cs with
    | nil => exact fun _ _ h => h
    | cons c cs ih => exact fun s p h => ih _ _ (h.call c)
  exact key _ _ ⟨rfl, rfl, PacketList.wf_empty⟩

/-- Complete means that every slot's last insert was valid. -/
theorem Models.isComplete_iff (h : s.Models p) : p.isComplete = true ↔
    0 < s.size ∧ ∀ i, i < s.size → ∃ data, s.slot i = some (data, true) := by
  have hok (i : Nat) : (s.node i).ok = true ↔ ∃ data, s.slot i = some (data, true) := by
    unfold node PacketNode.ok
    cases s.slot i with
    | none => simp
    | some d => obtain ⟨data, valid⟩ := d; simp
  rw [h.wf.isComplete_iff, h.size, h.index]
  simp only [List.mem_map, List.mem_range, forall_exists_index, and_imp, forall_apply_eq_imp_iff₂, hok]

/-- The data of the last inserts, in order. -/
def content (s : Slots) : Bytes :=
  (List.range s.size).flatMap fun i => ((s.slot i).map Prod.fst).getD []

theorem Models.assemble (h : s.Models p) : p.assemble = s.content := by
  have hdata (i : Nat) : (s.node i).data = ((s.slot i).map Prod.fst).getD [] := by
    unfold node
    cases s.slot i with
    | none => rfl
    | some d => rfl
  rw [PacketList.assemble, h.index, List.flatMap_map, content]
  simp only [hdata]

end Slots

namespace LinkedList

/-- The nodes `ns` met from `head_` along `next` are the slots of `index_`, in order, linked back
by `prev`, and end at `tail_`. -/
structure Linked (l : LinkedList) (ns : List (Nat × LinkedNode)) : Prop where
  walk : l.nodes = some ns
  length : ns.length = l.totalPackets.toNat
  distinct : (ns.map Prod.fst).Nodup
  index : l.index = ns.map fun c => some c.1
  tail : l.tail = ns.getLast?.map Prod.fst
  cell : ∀ (i : Nat) (c : Nat × LinkedNode), ns[i]? = some c → c.2.packetIndex.toNat = i ∧
    c.2.next = ns[i + 1]?.map Prod.fst ∧ c.2.prev = if i = 0 then none else ns[i - 1]?.map Prod.fst

section

variable {l : LinkedList} {ns : List (Nat × LinkedNode)} {p : PacketList} {s : Slots}

theorem Rep.call (hr : Rep l ns p) (hp : p.Wf) (c : ListCall) :
    ∃ l' ns', l.call c = some l' ∧ Rep l' ns' (p.call c) := by
  cases c with
  | init total => exact hr.init total
  | clear =>
    obtain ⟨l', hrun, hrep, -⟩ := hr.clear
    exact ⟨l', [], hrun, hrep⟩
  | insert pi data valid =>
    obtain ⟨l', ns', hrun, hrep⟩ := hr.insert hp pi data valid
    exact ⟨l', ns', by rw [LinkedList.call, hrun]; rfl, hrep⟩

/-- A run of the object is a run of the packet list, and never goes astray. -/
theorem rep_calls (cs : List ListCall) :
    ∃ l ns, LinkedList.calls cs = some l ∧ Rep l ns (PacketList.calls cs) := by
  have key : ∀ (l : LinkedList) (ns : List (Nat × LinkedNode)) (p : PacketList) (s : Slots),
      Rep l ns p → s.Models p → ∃ l' ns', cs.foldlM LinkedList.call l = some l' ∧
        Rep l' ns' (cs.foldl PacketList.call p) := by
    induction cs with
    | nil => exact fun l ns p _ hr _ => ⟨l, ns, rfl, hr⟩
    | cons c cs ih =>
      intro l ns p s hr hs
      obtain ⟨l', ns', hrun, hr'⟩ := hr.call hs.wf c
      rw [List.foldlM_cons, hrun]
      exact ih l' ns' _ _ hr' (hs.call c)
  exact key {} [] {} (Slots.empty 0) rep_empty ⟨rfl, rfl, PacketList.wf_empty⟩

theorem Rep.linked (hr : Rep l ns p) (hs : s.Models p) : Linked l ns where
  walk := hr.nodes
  length := by
    have := congrArg List.length hr.slots
    rw [List.length_map, hs.wf.length, ← hr.total] at this
    exact this
  distinct := hr.nodup
  index := hr.index
  tail := hr.tail
  cell i c hc := by
    refine ⟨?_, hr.chain.next_eq hc, hr.prev i c hc⟩
    have hslot : p.index[i]? = some c.2.toPacketNode := by
      rw [← hr.slots, List.getElem?_map, hc]
      rfl
    have hi : i < s.size := by
      have := (List.getElem?_eq_some_iff.mp hslot).1
      rwa [hs.wf.length, hs.size] at this
    have hb := p.totalPackets.toNat_lt
    have hsize := hs.size
    rw [hs.getElem? hi, Option.some.injEq] at hslot
    rw [← hslot, Slots.node_packetIndex, UInt32.toNat_ofNat', Nat.mod_eq_of_lt (by omega)]

/-- **The linked list is an array of slots**: no call goes astray, the links and the index agree,
the counter counts the valid slots, and completeness and content are those of the last inserts. -/
theorem calls_refine (cs : List ListCall) : ∃ l ns, LinkedList.calls cs = some l ∧ Linked l ns ∧
    l.totalPackets.toNat = (Slots.calls cs).size ∧
    l.validCount.toNat = ns.countP (fun c => c.2.received && c.2.valid) ∧
    (l.isComplete = true ↔ 0 < l.totalPackets.toNat ∧
      ∀ i, i < l.totalPackets.toNat → ∃ data, (Slots.calls cs).slot i = some (data, true)) ∧
    (∀ pi data valid, l.totalPackets.toNat ≤ pi.toNat → l.insert pi data valid = some (false, l)) ∧
    (l.isComplete = true → l.assemble = some (Slots.calls cs).content) := by
  obtain ⟨l, ns, hrun, hr⟩ := rep_calls cs
  have hs := Slots.models_calls cs
  have htotal : l.totalPackets.toNat = (Slots.calls cs).size := by rw [hr.total, hs.size]
  refine ⟨l, ns, hrun, hr.linked hs, htotal, ?_, ?_, fun pi data valid hpi => ?_, fun _ => ?_⟩
  · rw [hr.count, hs.wf.count, ← hr.slots, List.countP_map]
    rfl
  · rw [isComplete_eq hr, hs.isComplete_iff, htotal]
  · rw [LinkedList.insert, if_pos (UInt32.le_iff_toNat_le.mpr hpi)]
  · rw [hr.assemble, hs.assemble]

/-- A slot that goes valid, corrupt and valid again. -/
theorem calls_refine_small : ∃ l,
    LinkedList.calls [.init 2, .insert 0 [1] true, .insert 1 [2] true, .insert 0 [3] false,
      .insert 0 [4] true, .insert 2 [5] true] = some l ∧ l.assemble = some [4, 2] := by
  obtain ⟨l, ns, hrun, -, htotal, -, hcomplete, -, hassemble⟩ := calls_refine
    [.init 2, .insert 0 [1] true, .insert 1 [2] true, .insert 0 [3] false, .insert 0 [4] true,
      .insert 2 [5] true]
  refine ⟨l, hrun, hassemble (hcomplete.mpr ?_)⟩
  rw [htotal]
  refine ⟨by decide, fun i hi => ?_⟩
  have h2 : i < 2 := hi
  rcases Nat.lt_succ_iff_lt_or_eq.mp h2 with h1 | rfl
  · rw [Nat.lt_one_iff.mp h1]
    exact ⟨[4], rfl⟩
  · exact ⟨[2], rfl⟩

end

end LinkedList

end Cfdp
