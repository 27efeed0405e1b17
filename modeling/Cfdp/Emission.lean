import Cfdp.Durability
import Cfdp.Files

/-!
# What a step transmits

A handler that is cut by a crash, or throws, has transmitted the beginning of its
reply. Only `flush_chunk` throws, and before it transmits anything.
-/

namespace Cfdp

open Crash Prog Machine

section

variable {env : Env} {o : Oracle} {w x : World} {raw : Bytes}

/-! ## Throws -/

/-- `flush_chunk` throws before it acknowledges. -/
theorem throws_flushChunk {ci : UInt32} :
    wp (flushChunk env o ci) (fun _ => True) (fun _ _ => True) (fun _ x => x.sent = w.sent) w :=
  wp_flushChunk (fun _ _ => trivial) (fun _ _ _ _ => rfl) fun _ _ =>
    ⟨fun _ => trivial, fun _ _ _ _ => trivial, fun _ _ => ⟨trivial, fun _ =>
      wp_mono total_checkCompletion (fun _ h => h) (fun _ _ h => h) fun _ _ h => h.elim,
        fun _ => trivial⟩⟩

/-- A handler that throws was about to flush a chunk. -/
theorem throws_onPduReceived (raw : Bytes) :
    wp (onPduReceived env o raw) (fun _ => True) (fun _ _ => True)
      (fun _ x => ∃ d, decodePdu raw = some (.data d) ∧ w.rx.Completes d ∧
        x.sent = w.sent ++ (w.rx.leaveNak d.chunkIndex).toList) w := by
  cases hd : decodePdu raw with
  | none =>
    rw [onPduReceived, hd]
    exact (wp_pure ()).mpr trivial
  | some pdu =>
    by_cases hdata : ∃ d, pdu = .data d
    · obtain ⟨d, rfl⟩ := hdata
      rw [onPduReceived, hd]
      refine wp_handleData (fun _ => trivial) ?_ fun hacc hopen => ⟨fun _ _ => trivial, ?_⟩
      · rintro - - w₁ rfl
        exact ⟨fun _ => ⟨trivial, trivial⟩, fun _ => trivial⟩
      · rintro w₁ rfl
        refine ⟨fun hc => ?_, fun _ => trivial⟩
        refine wp_mono throws_flushChunk (fun _ h => h) (fun _ _ h => h) fun _ x hx => ?_
        refine ⟨d, rfl, ⟨hacc, hopen, by simpa using hc⟩, ?_⟩
        rw [hx]
        simp
    · exact wp_mono (total_pdu hd fun d he => hdata ⟨d, he⟩) (fun _ h => h) (fun _ _ h => h)
        fun _ _ h => h.elim

/-! ## Transmissions -/

/-- `x` has transmitted the beginning of the reply to `raw`. -/
def World.Within (env : Env) (o : Oracle) (w : World) (raw : Bytes) (x : World) : Prop :=
  ∃ verified out, out <+: (w.rx.reply env o verified raw).2 ∧ x.sent = w.sent ++ out

theorem World.Grows.sent {w w' : World} (h : w.Grows w') : ∃ out, w'.sent = w.sent ++ out := by
  obtain ⟨l, hl⟩ := h
  exact ⟨l.filterMap Event.pdu?, by rw [World.sent, World.sent, ← hl, List.filterMap_append]⟩

theorem World.Within.of_grows {x' : World} (h : w.Within env o raw x') (h1 : w.Grows x)
    (h2 : x.Grows x') :
    w.Within env o raw x := by
  obtain ⟨v, out, hp, hs⟩ := h
  obtain ⟨out₁, h1⟩ := h1.sent
  obtain ⟨out₂, h2⟩ := h2.sent
  refine ⟨v, out₁, List.IsPrefix.trans ⟨out₂, ?_⟩ hp, h1⟩
  rw [h1, hs, List.append_assoc] at h2
  exact (List.append_cancel_left h2).symm

/-- The reply to a Data PDU that completes its chunk. -/
theorem CfdpReceiver.Completes.reply {rx : CfdpReceiver} {d : DataPdu} (h : rx.Completes d)
    (hd : decodePdu raw = some (.data d)) (verified : Bool) : rx.reply env o verified raw =
      (((rx.take d).replyFlush verified d.chunkIndex).1,
        (rx.leaveNak d.chunkIndex).toList ++ ((rx.take d).replyFlush verified d.chunkIndex).2) := by
  simp only [CfdpReceiver.reply, hd, CfdpReceiver.replyPdu, CfdpReceiver.replyData, h.accepts, h.open_,
    h.complete, if_true, Bool.false_eq_true, if_false]

theorem within_final : w.Within env o raw (onPduReceived env o raw w).final := by
  cases hr : (onPduReceived env o raw w).result with
  | ok u =>
    obtain ⟨-, hs⟩ := (@wp_reply w o env raw).ok hr
    exact ⟨_, _, List.prefix_rfl, hs⟩
  | error e =>
    obtain ⟨d, hd, hc, hs⟩ := (@throws_onPduReceived env o w raw).error hr
    refine ⟨true, _, ?_, hs⟩
    rw [hc.reply hd]
    exact List.prefix_append _ _

theorem within_passed (hx : x ∈ (onPduReceived env o raw w).passed) : w.Within env o raw x := by
  obtain ⟨-, hall⟩ := logs_onPduReceived o env raw w
  obtain ⟨h1, h2⟩ := hall x hx
  exact within_final.of_grows h1 h2

/-- **A step transmits the beginning of the reply**, all of it unless it is cut or throws. -/
theorem Node.sent_recv {cut : Option Nat} {ms : List Moment} {n' : Node}
    (h : Node.step env (.up w) (.recv raw o cut) = some (ms, n')) :
    ∃ verified out, out <+: (w.rx.reply env o verified raw).2 ∧ n'.sent = w.sent ++ out ∧
      ∀ w', n' = .up w' → w'.rx = (w.rx.reply env o verified raw).1 := by
  simp only [Node.step, Option.map_eq_some_iff] at h
  obtain ⟨⟨ws, n⟩, hf, hr⟩ := h
  cases hr
  cases cut with
  | none =>
    simp only [Node.finish] at hf
    split at hf
    · next hr =>
      cases hf
      obtain ⟨hrx, hs⟩ := (@wp_reply w o env raw).ok hr
      refine ⟨_, _, List.prefix_rfl, hs, fun w' he => ?_⟩
      cases he
      exact hrx
    · cases hf
      obtain ⟨v, out, hp, hs⟩ := @within_final env o w raw
      exact ⟨v, out, hp, hs, fun w' he => by cases he⟩
  | some k =>
    simp only [Node.finish, Option.map_eq_some_iff] at hf
    obtain ⟨y, hy, hyn⟩ := hf
    cases hyn
    obtain ⟨v, out, hp, hs⟩ := within_passed (List.mem_of_getElem? hy)
    exact ⟨v, out, hp, hs, fun w' he => by cases he⟩

/-- So does a boot. -/
theorem Node.sent_boot {disk : Disk} {log : List Event} {garbage : JournalState} {cut : Option Nat}
    {ms : List Moment} {n' : Node}
    (h : Node.step env (.down disk log) (.boot garbage o cut) = some (ms, n')) :
    ∃ verified out, out <+: ((CfdpReceiver.construct garbage).replyBoot verified
      (World.loaded o ⟨.construct garbage, disk, log⟩)).2 ∧
        n'.sent = (Node.down disk log).sent ++ out := by
  simp only [Node.step, Option.map_eq_some_iff] at h
  obtain ⟨⟨ws, n⟩, hf, hr⟩ := h
  cases hr
  generalize hw : (⟨.construct garbage, disk, log⟩ : World) = w at hf
  have hsent : (Node.down disk log).sent = w.sent := by rw [← hw]; rfl
  have hrx : CfdpReceiver.construct garbage = w.rx := by rw [← hw]
  obtain ⟨u, hu, -⟩ := (@total_onBoot env o w).returns
  obtain ⟨-, hs⟩ := (@replies_onBoot w o env).ok hu
  obtain ⟨-, hall⟩ := logs_onBoot o env w
  rw [hsent, hrx]
  cases cut with
  | none =>
    simp only [Node.finish, hu] at hf
    cases hf
    exact ⟨_, _, List.prefix_rfl, hs⟩
  | some k =>
    simp only [Node.finish, Option.map_eq_some_iff] at hf
    obtain ⟨y, hy, hyn⟩ := hf
    cases hyn
    obtain ⟨h1, h2⟩ := hall y (List.mem_of_getElem? hy)
    obtain ⟨out₁, h1⟩ := h1.sent
    obtain ⟨out₂, h2⟩ := h2.sent
    refine ⟨verifyFileChecksum env o (onBoot env o w).final, out₁, ⟨out₂, ?_⟩, h1⟩
    rw [h1, hs, List.append_assoc] at h2
    exact (List.append_cancel_left h2).symm

end

end Cfdp
