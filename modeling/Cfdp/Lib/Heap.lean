import Mathlib.Data.List.Basic
import Mathlib.Data.List.Perm.Subperm

/-!
# Nodes on a heap

A heap holds the nodes allocated so far by address, `none` once freed. A read, a
write or a free through a null or freed pointer has no result. `Chain next h p cs`
says that the pointers `next` lead from `p` through the cells `cs`, an address and
a node each, to null.
-/

/-- A pointer, `none` if null. -/
abbrev Ptr := Option Nat

abbrev Heap (ν : Type) := List (Option ν)

namespace Heap

variable {ν : Type} {h : Heap ν} {p : Ptr} {a b : Nat} {x y : ν}

/-- `*p`. -/
def deref (h : Heap ν) (p : Ptr) : Option ν := p.bind fun a => (h[a]?).join

/-- `*p = x`. -/
def store (h : Heap ν) (p : Ptr) (x : ν) : Option (Heap ν) :=
  p.bind fun a => (h.deref p).map fun _ => h.set a (some x)

/-- `delete p`. -/
def free (h : Heap ν) (p : Ptr) : Option (Heap ν) :=
  p.bind fun a => (h.deref p).map fun _ => h.set a none

theorem deref_eq_some : h.deref (some a) = some x ↔ h[a]? = some (some x) := by
  simp [deref, Option.join_eq_some_iff]

theorem lt_of_deref (hx : h.deref (some a) = some x) : a < h.length :=
  (List.getElem?_eq_some_iff.mp (deref_eq_some.mp hx)).1

theorem store_eq (hx : h.deref (some a) = some x) (y : ν) :
    h.store (some a) y = some (h.set a (some y)) := by
  simp [store, hx]

theorem free_eq (hx : h.deref (some a) = some x) : h.free (some a) = some (h.set a none) := by
  simp [free, hx]

theorem deref_set_self (ha : a < h.length) (x : ν) :
    Heap.deref (h.set a (some x)) (some a) = some x :=
  deref_eq_some.mpr (List.getElem?_set_self ha)

theorem deref_set_of_ne (hab : a ≠ b) (c : Option ν) :
    Heap.deref (h.set a c) (some b) = h.deref (some b) := by
  simp [deref, List.getElem?_set_ne hab]

/-! ## Chains -/

/-- The pointers lead from `p` through the cells to null. -/
def Chain (next : ν → Ptr) (h : Heap ν) : Ptr → List (Nat × ν) → Prop
  | p, [] => p = none
  | p, c :: cs => p = some c.1 ∧ h.deref p = some c.2 ∧ Chain next h (next c.2) cs

/-- The cells met on the way along the pointers, in at most `fuel` rounds. -/
def walk (next : ν → Ptr) (h : Heap ν) : Nat → Ptr → Option (List (Nat × ν))
  | 0, _ => none
  | _ + 1, none => some []
  | fuel + 1, some a =>
    match h.deref (some a) with
    | none => none
    | some x => (walk next h fuel (next x)).map fun cs => (a, x) :: cs

section

variable {next : ν → Ptr} {cs : List (Nat × ν)}

theorem Chain.deref (hc : Chain next h p cs) {c : Nat × ν} (hm : c ∈ cs) :
    h.deref (some c.1) = some c.2 := by
  induction cs generalizing p with
  | nil => cases hm
  | cons d cs ih =>
    obtain ⟨hp, hd, hrest⟩ := hc
    rcases List.mem_cons.mp hm with rfl | hm
    · rwa [hp] at hd
    · exact ih hrest hm

theorem Chain.start (hc : Chain next h p cs) : p = cs.head?.map Prod.fst := by
  cases cs with
  | nil => exact hc
  | cons c cs => exact hc.1

/-- Each cell points to the one after it. -/
theorem Chain.next_eq (hc : Chain next h p cs) {i : Nat} {c : Nat × ν} (hi : cs[i]? = some c) :
    next c.2 = (cs[i + 1]?).map Prod.fst := by
  induction cs generalizing p i with
  | nil => cases hi
  | cons d cs ih =>
    cases i with
    | zero =>
      obtain rfl : d = c := by simpa using hi
      rw [hc.2.2.start, List.getElem?_cons_succ, List.head?_eq_getElem?]
    | succ i => exact ih hc.2.2 (by simpa using hi)

/-- Cells that point one to the next form a chain. -/
theorem chain_of_cells (hp : p = cs.head?.map Prod.fst)
    (hcell : ∀ (i : Nat) (c : Nat × ν), cs[i]? = some c → h.deref (some c.1) = some c.2 ∧
      next c.2 = (cs[i + 1]?).map Prod.fst) : Chain next h p cs := by
  induction cs generalizing p with
  | nil => exact hp
  | cons c cs ih =>
    obtain ⟨hd, hnext⟩ := hcell 0 c rfl
    rw [List.getElem?_cons_succ, ← List.head?_eq_getElem?] at hnext
    obtain rfl : p = some c.1 := hp
    exact ⟨rfl, hd, ih hnext fun i d hi => hcell (i + 1) d hi⟩

/-- A chain is no longer than the heap if it visits no cell twice. -/
theorem Chain.length_le (hc : Chain next h p cs) (hn : (cs.map Prod.fst).Nodup) :
    cs.length ≤ h.length := by
  have hsub : cs.map Prod.fst ⊆ List.range h.length := by
    intro a ha
    obtain ⟨c, hm, rfl⟩ := List.mem_map.mp ha
    exact List.mem_range.mpr (lt_of_deref (hc.deref hm))
  have := (List.subperm_of_subset hn hsub).length_le
  rwa [List.length_map, List.length_range] at this

theorem Chain.walk (hc : Chain next h p cs) {fuel : Nat} (hf : cs.length < fuel) :
    Heap.walk next h fuel p = some cs := by
  induction cs generalizing p fuel with
  | nil =>
    obtain ⟨fuel, rfl⟩ := Nat.exists_eq_add_one.mpr (Nat.zero_lt_of_lt hf)
    rw [show p = none from hc]
    rfl
  | cons c cs ih =>
    obtain ⟨rfl, hd, hrest⟩ := hc
    obtain ⟨fuel, rfl⟩ := Nat.exists_eq_add_one.mpr (Nat.zero_lt_of_lt hf)
    rw [Heap.walk, hd]
    simp only [ih hrest (by simpa using hf), Option.map_some]

/-- A change outside the chain. -/
theorem Chain.frame (hc : Chain next h p cs) (ha : a ∉ cs.map Prod.fst) (c : Option ν) :
    Chain next (h.set a c) p cs := by
  induction cs generalizing p with
  | nil => exact hc
  | cons d cs ih =>
    obtain ⟨rfl, hd, hrest⟩ := hc
    simp only [List.map_cons, List.mem_cons, not_or] at ha
    exact ⟨rfl, by rw [deref_set_of_ne ha.1]; exact hd, ih hrest ha.2⟩

/-- A node of the chain replaced by one with the same pointer. -/
theorem Chain.update (hc : Chain next h p cs) (hn : (cs.map Prod.fst).Nodup) {i : Nat}
    (hi : cs[i]? = some (a, x)) (hy : next y = next x) :
    Chain next (h.set a (some y)) p (cs.set i (a, y)) := by
  induction cs generalizing p i with
  | nil => cases hi
  | cons d cs ih =>
    obtain ⟨rfl, hd, hrest⟩ := hc
    rw [List.map_cons, List.nodup_cons] at hn
    cases i with
    | zero =>
      obtain rfl : d = (a, x) := by simpa using hi
      refine ⟨rfl, deref_set_self (lt_of_deref hd) y, ?_⟩
      rw [hy]
      exact hrest.frame hn.1 _
    | succ i =>
      have hi' : cs[i]? = some (a, x) := by simpa using hi
      have hne : a ≠ d.1 := by
        rintro rfl
        exact hn.1 (List.mem_map.mpr ⟨_, List.mem_of_getElem? hi', rfl⟩)
      exact ⟨rfl, by rw [deref_set_of_ne hne]; exact hd, ih hrest hn.2 hi'⟩

end

end Heap
