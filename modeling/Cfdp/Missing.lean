import Cfdp.PacketNodes
import Cfdp.Reply

/-!
# Missing ranges

`compute_nak_ranges` and `compute_missing_chunks` return the maximal runs of missing
indices (`MissingRuns`), so the answer to a ResumeQuery of the active transfer is the
least chunk that is not done.
-/

namespace Cfdp

open Crash Prog

/-- The ranges are the maximal runs of missing indices below `total`, in increasing order, with a
present index between any two. -/
structure MissingRuns (missing : UInt32 → Bool) (total : UInt32) (rs : List (UInt32 × UInt32)) :
    Prop where
  runs : ∀ a b : UInt32, (a, b) ∈ rs ↔
    Runs.Maximal (fun i => missing (UInt32.ofNat i)) total.toNat a.toNat b.toNat
  apart : rs.Pairwise fun r q => ∃ i : UInt32, r.2 < i ∧ i < q.1 ∧ missing i = false

theorem toNat_ofNat_lt {i : Nat} {n : UInt32} (h : i < n.toNat) : (UInt32.ofNat i).toNat = i := by
  have := n.toNat_lt
  rw [UInt32.toNat_ofNat', Nat.mod_eq_of_lt (by omega)]

/-- **The scan with the signed sentinel finds the maximal runs.** -/
theorem missingRuns_missingRanges (missing : UInt32 → Bool) (total : UInt32) :
    MissingRuns missing total (missingRanges missing total) := by
  have hr := Runs.isRuns_scan (fun i => missing (UInt32.ofNat i)) total.toNat
  have hnat : ∀ r ∈ Runs.scan (fun i => missing (UInt32.ofNat i)) total.toNat,
      (range32 r).1.toNat = r.1 ∧ (range32 r).2.toNat = r.2 := by
    intro r hm
    have h1 := hr.proper r hm
    have h2 := hr.lt r hm
    exact ⟨toNat_ofNat_lt (Nat.lt_of_le_of_lt h1 h2), toNat_ofNat_lt h2⟩
  rw [missingRanges_eq]
  refine ⟨fun a b => ?_, ?_⟩
  · rw [← hr.mem_iff, List.mem_map]
    constructor
    · rintro ⟨r, hm, he⟩
      obtain ⟨h1, h2⟩ := hnat r hm
      rw [he] at h1 h2
      rwa [h1, h2]
    · intro hm
      exact ⟨_, hm, by simp [range32]⟩
  · rw [List.pairwise_map]
    refine hr.gap.imp_of_mem fun {r q} hrm hqm hgap => ?_
    obtain ⟨i, h1, h2, hp⟩ := hgap
    have hi : (UInt32.ofNat i).toNat = i :=
      toNat_ofNat_lt (Nat.lt_trans h2 (Nat.lt_of_le_of_lt (hr.proper q hqm) (hr.lt q hqm)))
    refine ⟨UInt32.ofNat i, ?_, ?_, hp⟩
    · rw [UInt32.lt_iff_toNat_lt, (hnat r hrm).2, hi]
      exact h1
    · rw [UInt32.lt_iff_toNat_lt, (hnat q hqm).1, hi]
      exact h2

theorem missingRanges_eq_nil {missing : UInt32 → Bool} {total : UInt32} :
    missingRanges missing total = [] ↔ ∀ i, i < total.toNat → missing (UInt32.ofNat i) = false := by
  rw [missingRanges_eq, List.map_eq_nil_iff, (Runs.isRuns_scan _ _).eq_nil_iff]

/-! ## Packets -/

/-- The slot of a packet holds one that passed its CRC-8. -/
def PacketList.present (p : PacketList) (i : UInt32) : Bool := (p.index[i.toNat]?).any PacketNode.ok

theorem PacketList.needsRetransmit_eq_not (p : PacketList) (i : UInt32) :
    p.needsRetransmit i = !p.present i := by
  unfold PacketList.present PacketList.needsRetransmit
  cases p.index[i.toNat]? with
  | none => rfl
  | some node => simp [PacketNode.ok]

theorem PacketList.Wf.isComplete_iff_nakRanges {p : PacketList} (h : p.Wf)
    (h0 : 0 < p.totalPackets.toNat) : p.isComplete = true ↔ p.computeNakRanges = [] := by
  rw [h.isComplete_iff, PacketList.computeNakRanges, missingRanges_eq_nil]
  have hget (i : Nat) (hi : i < p.totalPackets.toNat) (hlt : i < p.index.length) :
      p.needsRetransmit (UInt32.ofNat i) = !p.index[i].ok :=
    PacketList.needsRetransmit_eq (by rw [toNat_ofNat_lt hi, List.getElem?_eq_getElem hlt])
  constructor
  · rintro ⟨-, hall⟩ i hi
    have hlt : i < p.index.length := h.length ▸ hi
    rw [hget i hi hlt, hall _ (List.getElem_mem hlt)]
    rfl
  · refine fun hall => ⟨h0, fun node hm => ?_⟩
    obtain ⟨i, hlt, rfl⟩ := List.getElem_of_mem hm
    have hi : i < p.totalPackets.toNat := h.length ▸ hlt
    have := hall i hi
    rw [hget i hi hlt] at this
    simpa using this

/-! ## The answer to a ResumeQuery -/

/-- What the receiver answers about its active transfer. -/
theorem firstMissingChunk_active {rx : CfdpReceiver} (ha : rx.transferActive = true) :
    (firstMissingChunk rx rx.state.transactionId = uint32Max ↔
      ∀ ci, ci < rx.state.totalChunks → rx.state.isDone ci = true) ∧
    (firstMissingChunk rx rx.state.transactionId ≠ uint32Max →
      firstMissingChunk rx rx.state.transactionId < rx.state.totalChunks ∧
      rx.state.isDone (firstMissingChunk rx rx.state.transactionId) = false ∧
      ∀ ci, ci < firstMissingChunk rx rx.state.transactionId → rx.state.isDone ci = true) := by
  have hcond : (!rx.transferActive || rx.state.transactionId != rx.state.transactionId) = false := by
    simp [ha]
  unfold firstMissingChunk
  rw [hcond, if_neg Bool.false_ne_true]
  cases hm : rx.state.computeMissingChunks with
  | nil =>
    have hall := (JournalState.computeMissingChunks_eq_nil _).mp hm
    exact ⟨⟨fun _ => hall, fun _ => rfl⟩, fun hne => absurd rfl hne⟩
  | cons cr crs =>
    obtain ⟨hlt, hopen, hleast⟩ := JournalState.computeMissingChunks_head hm
    refine ⟨⟨fun hmax => ?_, fun hall => ?_⟩, fun _ => ⟨hlt, hopen, hleast⟩⟩
    · have hb := rx.state.totalChunks.toNat_lt
      rw [UInt32.lt_iff_toNat_lt, show cr.firstChunk = uint32Max from hmax,
        show uint32Max.toNat = 2 ^ 32 - 1 from rfl] at hlt
      omega
    · rw [hall _ hlt] at hopen
      cases hopen

/-- The query is answered with it. -/
theorem sent_handleResumeQuery (w : World) (query : ResumeQueryPdu) :
    (handleResumeQuery query w).result = .ok () ∧ (handleResumeQuery query w).final.sent = w.sent ++
      [ResumeInfoPdu.raw ⟨query.transactionId, firstMissingChunk w.rx query.transactionId⟩] := by
  refine ⟨rfl, ?_⟩
  show (w.send _).sent = _
  rw [World.sent_send]

/-- **Missing-range scans are exact**, on every packet list and every journal record, and so are
completeness and the answer to a ResumeQuery. -/
theorem missing_exact :
    (∀ cs : List ListCall, ∃ l ns rs, LinkedList.calls cs = some l ∧ l.nodes = some ns ∧
      l.computeNakRanges = some rs ∧
      MissingRuns (fun i => !(ns[i.toNat]?).any fun c => c.2.received && c.2.valid) l.totalPackets rs ∧
      (0 < l.totalPackets.toNat → (l.isComplete = true ↔ rs = []))) ∧
    (∀ s : JournalState, ∃ rs, s.computeMissingChunks = rs.map (fun r => ⟨r.1, r.2⟩) ∧
      MissingRuns (fun ci => !s.isDone ci) s.totalChunks rs) ∧
    ∀ (w : World) (tid : UInt32), w.rx.transferActive = true → w.rx.state.transactionId = tid →
      ∃ first, (handleResumeQuery ⟨tid⟩ w).final.sent = w.sent ++ [ResumeInfoPdu.raw ⟨tid, first⟩] ∧
        (first = uint32Max ↔ ∀ ci, ci < w.rx.state.totalChunks → w.rx.state.isDone ci = true) ∧
        (first ≠ uint32Max → first < w.rx.state.totalChunks ∧ w.rx.state.isDone first = false ∧
          ∀ ci, ci < first → w.rx.state.isDone ci = true) := by
  refine ⟨fun cs => ?_, fun s => ⟨_, rfl, missingRuns_missingRanges _ _⟩, fun w tid ha ht => ?_⟩
  · obtain ⟨l, ns, hrun, hr⟩ := LinkedList.rep_calls cs
    have hwf := (Slots.models_calls cs).wf
    refine ⟨l, ns, _, hrun, hr.nodes, hr.computeNakRanges hwf, ?_, fun h0 => ?_⟩
    · have hpresent : (fun i : UInt32 => !(ns[i.toNat]?).any fun c => c.2.received && c.2.valid) =
          (PacketList.calls cs).needsRetransmit := by
        funext i
        rw [PacketList.needsRetransmit_eq_not, PacketList.present, ← hr.slots, List.getElem?_map]
        cases ns[i.toNat]? <;> rfl
      rw [hpresent, hr.total]
      exact missingRuns_missingRanges _ _
    · rw [LinkedList.isComplete_eq hr]
      exact hwf.isComplete_iff_nakRanges (hr.total ▸ h0)
  · subst ht
    obtain ⟨h1, h2⟩ := firstMissingChunk_active ha
    exact ⟨_, (sent_handleResumeQuery w ⟨w.rx.state.transactionId⟩).2, h1, h2⟩

/-- Six slots: the second and the fourth hold a valid packet, the fifth a corrupt one. -/
def sixSlots : List ListCall :=
  [.init 6, .insert 1 [0x61] true, .insert 3 [0x62] true, .insert 4 [0x63] false]

/-- Five chunks, the second and the last of which are missing. -/
def fiveChunks : JournalState :=
  { JournalState.blank with totalChunks := 5, chunkDone := [true, false, true, true, false] }

/-- Three runs of packets, two of chunks, and the query is answered with the first of these. -/
theorem missing_exact_small :
    (∃ l ns, LinkedList.calls sixSlots = some l ∧ l.nodes = some ns ∧ l.isComplete = false ∧
      MissingRuns (fun i => !(ns[i.toNat]?).any fun c => c.2.received && c.2.valid) l.totalPackets
        [(0, 0), (2, 2), (4, 5)]) ∧
    MissingRuns (fun ci => !fiveChunks.isDone ci) 5 [(1, 1), (4, 4)] ∧
    (handleResumeQuery ⟨0⟩ ⟨{ state := fiveChunks, transferActive := true },
      ⟨none, none, fun _ => none⟩, []⟩).final.sent = [ResumeInfoPdu.raw ⟨0, 1⟩] := by
  refine ⟨?_, ?_, ?_⟩
  · obtain ⟨l, ns, rs, hl, hns, hrs, hruns, hcomplete⟩ := missing_exact.1 sixSlots
    have hranges : (LinkedList.calls sixSlots).bind LinkedList.computeNakRanges =
        some [(0, 0), (2, 2), (4, 5)] := by decide +kernel
    have htotal : (LinkedList.calls sixSlots).map (·.totalPackets) = some 6 := by decide +kernel
    rw [hl, Option.bind_some, hrs, Option.some.injEq] at hranges
    rw [hl, Option.map_some, Option.some.injEq] at htotal
    subst hranges
    refine ⟨l, ns, hl, hns, ?_, hruns⟩
    rw [Bool.eq_false_iff]
    intro hc
    exact absurd ((hcomplete (by rw [htotal]; decide)).mp hc) (by decide)
  · obtain ⟨rs, hrs, hruns⟩ := missing_exact.2.1 fiveChunks
    have hscan : fiveChunks.computeMissingChunks = [⟨1, 1⟩, ⟨4, 4⟩] := by decide +kernel
    have hpairs : rs = fiveChunks.computeMissingChunks.map fun c => (c.firstChunk, c.lastChunk) := by
      rw [hrs, List.map_map]
      exact (List.map_id' rs).symm
    rw [hpairs, hscan] at hruns
    exact hruns
  · obtain ⟨first, hsent, hall, hfirst⟩ := missing_exact.2.2
      ⟨{ state := fiveChunks, transferActive := true }, ⟨none, none, fun _ => none⟩, []⟩ 0 rfl rfl
    have hmissing : first ≠ uint32Max := fun he => by
      have h1 := hall.mp he 1 (by decide)
      revert h1
      decide
    obtain ⟨-, hopen, hbefore⟩ := hfirst hmissing
    have h0 : first ≠ 0 := by
      rintro rfl
      revert hopen
      decide
    have h1 : ¬ 1 < first := fun h => by
      have := hbefore 1 h
      revert this
      decide
    have : first = 1 := by
      rw [UInt32.lt_iff_toNat_lt] at h1
      have h0' : first.toNat ≠ 0 := fun h => h0 (UInt32.toNat_inj.mp h)
      apply UInt32.toNat_inj.mp
      have : (1 : UInt32).toNat = 1 := rfl
      omega
    rw [hsent, this]
    rfl

end Cfdp
