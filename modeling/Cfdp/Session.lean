import Cfdp.Sender

/-!
# The sender's control flow

`send`, `_query_resume`, `_send_one_chunk` and `_on_nak` of `sender.py`, cut where
the sender waits in `recv`. A `Phase` says where it waits; a reaction is what it
transmits until it waits again. An exception ends the session (`raised`); what was
transmitted before is on the line.
-/

namespace Cfdp

open LittleEndian

/-- Waiting for a ResumeInfo, for the ACK of chunk `ci`, for the final ACK; `send` has
returned, or raised. -/
inductive Phase where
  | query (attempt : Nat)
  | chunk (ci : Nat)
  | final
  | returned
  | raised
  deriving DecidableEq

abbrev Reaction := List Bytes × Phase

/-- Transmit PDUs, up to the first that cannot be built. -/
def sendAll (next : Phase) : List (Option Bytes) → Reaction
  | [] => ([], next)
  | none :: _ => ([], .raised)
  | some pdu :: pdus => (pdu :: (sendAll next pdus).1, (sendAll next pdus).2)

/-- `any(… for p in batch)` of a test that looks at `p[0]`: an empty PDU raises, unless one
before it passes. -/
def anyPdu (test : Bytes → Bool) : List Bytes → Option Bool
  | [] => some false
  | pdu :: pdus => if pdu = [] then none else if test pdu then some true else anyPdu test pdus

/-- An Ack of chunk `ci`, of any transaction. -/
def acksChunk (ci : Nat) (pdu : Bytes) : Bool :=
  pdu.head? == some PduType.ack.code && decide (9 ≤ pdu.length) && (rd32 (pdu.drop 5)).toNat == ci

theorem acksChunk_raw (t c : UInt32) (ci : Nat) :
    acksChunk ci (AckPdu.raw ⟨t, c⟩) = (c.toNat == ci) := by
  have hc : rd32 ((AckPdu.raw ⟨t, c⟩).drop 5) = c := rd32_le32' c
  unfold acksChunk
  rw [hc]
  rfl

/-- `ACK_FINAL`. -/
def ackFinal : Nat := 0xFFFFFFFF

def isNak (pdu : Bytes) : Bool := pdu.head? == some PduType.nak.code

/-- A `recv` that does not time out gives one PDU to `_query_resume`, and a batch to `send`. -/
def Phase.Reads : Phase → List Bytes → Prop
  | .query _, batch => batch.length = 1
  | .chunk _, batch => batch ≠ []
  | .final, batch => batch ≠ []
  | _, _ => False

namespace Transfer

variable (crc32 : UInt32 → Bytes → UInt32) (x : Transfer)

/-- `_send_one_chunk`. -/
def oneChunk (ci : Nat) : List (Option Bytes) :=
  if x.packetSize = 0 then [none] else (List.range (x.totalPkts ci).toNat).map (x.packet ci)

/-- The loop of `send` over the chunks, at chunk `ci`. -/
def sendChunk (ci : Nat) : Reaction :=
  if ci < x.totalChunks then sendAll (.chunk ci) (x.oneChunk ci ++ [some (x.eofPdu crc32)])
  else ([], .final)

/-- One range of a NAK. -/
def onNakRange (payload : Bytes) (i : Nat) : List (Option Bytes) :=
  if payload.length < 8 + i * 12 + 12 ∨ x.packetSize = 0 then [none]
  else
    let ci := (rd32 (payload.drop (8 + i * 12))).toNat
    let first := (rd32 (payload.drop (8 + i * 12 + 4))).toNat
    let last := (rd32 (payload.drop (8 + i * 12 + 8))).toNat
    (List.range (last + 1 - first)).map fun j => x.packet ci (first + j)

/-- `_on_nak`. -/
def onNak (payload : Bytes) : List (Option Bytes) :=
  if payload.length < 8 then [none]
  else (List.range (rd32 (payload.drop 4)).toNat).flatMap (x.onNakRange payload)

/-- `send`, up to its first wait. -/
def send : Reaction := sendAll (.query 0) [x.metadataPdu crc32, some x.queryPdu]

/-- An attempt of `_query_resume` has failed: three are made. -/
def queryFailed (attempt : Nat) : Reaction :=
  if attempt + 1 < 3 then ([x.queryPdu], .query (attempt + 1)) else x.sendChunk crc32 0

/-- `_query_resume` reads a PDU. -/
def onInfo (attempt : Nat) (pdu : Bytes) : Reaction :=
  if pdu.length < 9 ∨ pdu.head? ≠ some PduType.resumeInfo.code then x.queryFailed crc32 attempt
  else if rd32 (pdu.drop 1) ≠ x.tid then x.queryFailed crc32 attempt
  else if rd32 (pdu.drop 5) = uint32Max then
    -- everything received: no chunk is left to send
    ([x.eofPdu crc32], .final)
  else x.sendChunk crc32 (rd32 (pdu.drop 5)).toNat

/-- `recv` has timed out. -/
def onTimeout : Phase → Reaction
  | .query attempt => x.queryFailed crc32 attempt
  | .chunk ci => sendAll (.chunk ci) [x.metadataPdu crc32, some (x.eofPdu crc32)]
  | .final => ([x.eofPdu crc32], .final)
  | phase => ([], phase)

/-- A batch read while waiting for the ACK of chunk `ci`. -/
def onChunkBatch (ci : Nat) (batch : List Bytes) : Reaction :=
  match anyPdu (acksChunk ackFinal) batch with
  | none => ([], .raised)
  | some true => ([], .returned)
  | some false =>
    if anyPdu (acksChunk ci) batch = some true then x.sendChunk crc32 (ci + 1)
    else
      match batch.reverse.find? isNak with
      | some nak => sendAll (.chunk ci) (x.onNak (nak.drop 1) ++ [some (x.eofPdu crc32)])
      | none => ([], .chunk ci)

/-- A batch read while waiting for the final ACK. -/
def onFinalBatch (batch : List Bytes) : Reaction :=
  match anyPdu (acksChunk ackFinal) batch with
  | none => ([], .raised)
  | some true => ([], .returned)
  | some false => ([], .final)

/-- `recv` has delivered PDUs. -/
def onBatch : Phase → List Bytes → Reaction
  | .query attempt, batch => x.onInfo crc32 attempt (batch.headD [])
  | .chunk ci, batch => x.onChunkBatch crc32 ci batch
  | .final, batch => onFinalBatch batch
  | phase, _ => ([], phase)

/-- What a session has transmitted and where it waits, whatever it received. -/
inductive Sends : List Bytes → Phase → Prop
  | send : Sends (x.send crc32).1 (x.send crc32).2
  | timeout {sent : List Bytes} {phase : Phase} (h : Sends sent phase) :
      Sends (sent ++ (x.onTimeout crc32 phase).1) (x.onTimeout crc32 phase).2
  | batch {sent : List Bytes} {phase : Phase} {batch : List Bytes} (h : Sends sent phase)
      (hb : phase.Reads batch) :
      Sends (sent ++ (x.onBatch crc32 phase batch).1) (x.onBatch crc32 phase batch).2

end Transfer

/-! ## What a reaction can be -/

theorem mem_sendAll {next : Phase} {pdus : List (Option Bytes)} {pdu : Bytes}
    (h : pdu ∈ (sendAll next pdus).1) : some pdu ∈ pdus := by
  induction pdus with
  | nil => cases h
  | cons p pdus ih =>
    cases p with
    | none => cases h
    | some q =>
      rcases List.mem_cons.mp h with rfl | h
      · exact List.mem_cons_self
      · exact List.mem_cons_of_mem _ (ih h)

/-- A transmission ends as planned, or raises. -/
theorem sendAll_phase (next : Phase) (pdus : List (Option Bytes)) :
    (sendAll next pdus).2 = next ∨ (sendAll next pdus).2 = .raised := by
  induction pdus with
  | nil => exact .inl rfl
  | cons p pdus ih =>
    cases p with
    | none => exact .inr rfl
    | some q => exact ih

theorem sendAll_map_some (next : Phase) (pdus : List Bytes) :
    sendAll next (pdus.map some) = (pdus, next) := by
  induction pdus with
  | nil => rfl
  | cons p pdus ih => rw [List.map_cons, sendAll, ih]

theorem anyPdu_true {test : Bytes → Bool} {batch : List Bytes} (h : anyPdu test batch = some true) :
    ∃ pdu ∈ batch, test pdu = true := by
  induction batch with
  | nil => cases h
  | cons p batch ih =>
    unfold anyPdu at h
    split at h
    · cases h
    · split at h
      · next ht => exact ⟨p, List.mem_cons_self, ht⟩
      · obtain ⟨pdu, hp, ht⟩ := ih h
        exact ⟨pdu, List.mem_cons_of_mem _ hp, ht⟩

/-- Without empty PDUs nothing raises. -/
theorem anyPdu_false {test : Bytes → Bool} {batch : List Bytes} (hne : ∀ pdu ∈ batch, pdu ≠ [])
    (h : ∀ pdu ∈ batch, test pdu = false) : anyPdu test batch = some false := by
  induction batch with
  | nil => rfl
  | cons p batch ih =>
    unfold anyPdu
    rw [if_neg (hne p List.mem_cons_self), h p List.mem_cons_self, if_neg Bool.false_ne_true]
    exact ih (fun q hq => hne q (List.mem_cons_of_mem _ hq)) fun q hq =>
      h q (List.mem_cons_of_mem _ hq)

namespace Transfer

variable {crc32 : UInt32 → Bytes → UInt32} {x : Transfer} {phase : Phase} {batch sent : List Bytes}
  {ci : Nat} {pdu : Bytes}

/-- A reaction transmits PDUs of `x`. -/
def Reacts (crc32 : UInt32 → Bytes → UInt32) (x : Transfer) (r : Reaction) : Prop :=
  ∀ pdu ∈ r.1, x.Emits crc32 pdu

theorem reacts_sendAll {next : Phase} {pdus : List (Option Bytes)}
    (h : ∀ pdu, some pdu ∈ pdus → x.Emits crc32 pdu) : x.Reacts crc32 (sendAll next pdus) :=
  fun _ hp => h _ (mem_sendAll hp)

theorem reacts_nil (phase : Phase) : x.Reacts crc32 ([], phase) := fun _ hp => by cases hp

theorem reacts_sendChunk (ci : Nat) : x.Reacts crc32 (x.sendChunk crc32 ci) := by
  unfold sendChunk
  split
  · refine reacts_sendAll fun pdu hp => ?_
    rcases List.mem_append.mp hp with hp | hp
    · unfold oneChunk at hp
      split at hp
      · simp at hp
      · obtain ⟨pi, -, hpi⟩ := List.mem_map.mp hp
        exact .data _ _ hpi
    · cases List.mem_singleton.mp hp
      exact .eof
  · exact reacts_nil _

theorem emits_onNak {payload : Bytes} (h : some pdu ∈ x.onNak payload) : x.Emits crc32 pdu := by
  unfold onNak at h
  split at h
  · simp at h
  · obtain ⟨i, -, hi⟩ := List.mem_flatMap.mp h
    unfold onNakRange at hi
    split at hi
    · simp at hi
    · obtain ⟨j, -, hj⟩ := List.mem_map.mp hi
      exact .data _ _ hj

theorem reacts_send : x.Reacts crc32 (x.send crc32) := by
  refine reacts_sendAll fun pdu hp => ?_
  rcases List.mem_cons.mp hp with h | hp
  · exact .metadata h.symm
  · cases List.mem_singleton.mp hp
    exact .query

theorem reacts_queryFailed (attempt : Nat) : x.Reacts crc32 (x.queryFailed crc32 attempt) := by
  unfold queryFailed
  split
  · intro pdu hp
    rw [List.mem_singleton.mp hp]
    exact .query
  · exact reacts_sendChunk _

theorem reacts_onTimeout (phase : Phase) : x.Reacts crc32 (x.onTimeout crc32 phase) := by
  cases phase with
  | query attempt => exact reacts_queryFailed _
  | chunk ci =>
    refine reacts_sendAll fun pdu hp => ?_
    rcases List.mem_cons.mp hp with h | hp
    · exact .metadata h.symm
    · cases List.mem_singleton.mp hp
      exact .eof
  | final =>
    intro pdu hp
    rw [List.mem_singleton.mp hp]
    exact .eof
  | returned => exact reacts_nil _
  | raised => exact reacts_nil _

theorem reacts_onBatch (phase : Phase) (batch : List Bytes) :
    x.Reacts crc32 (x.onBatch crc32 phase batch) := by
  cases phase with
  | query attempt =>
    show x.Reacts crc32 (x.onInfo crc32 attempt _)
    unfold onInfo
    split
    · exact reacts_queryFailed _
    · split
      · exact reacts_queryFailed _
      · split
        · intro pdu hp
          rw [List.mem_singleton.mp hp]
          exact .eof
        · exact reacts_sendChunk _
  | chunk ci =>
    show x.Reacts crc32 (x.onChunkBatch crc32 ci batch)
    unfold onChunkBatch
    split
    · exact reacts_nil _
    · exact reacts_nil _
    · split
      · exact reacts_sendChunk _
      · split
        · refine reacts_sendAll fun pdu hp => ?_
          rcases List.mem_append.mp hp with hp | hp
          · exact emits_onNak hp
          · cases List.mem_singleton.mp hp
            exact .eof
        · exact reacts_nil _
  | final =>
    show x.Reacts crc32 (onFinalBatch batch)
    unfold onFinalBatch
    split <;> exact reacts_nil _
  | returned => exact reacts_nil _
  | raised => exact reacts_nil _

/-- **A session transmits only PDUs of its transfer.** -/
theorem Sends.emits (h : x.Sends crc32 sent phase) : ∀ pdu ∈ sent, x.Emits crc32 pdu := by
  induction h with
  | send => exact reacts_send
  | timeout _ ih =>
    intro pdu hp
    rcases List.mem_append.mp hp with hp | hp
    · exact ih pdu hp
    · exact reacts_onTimeout _ pdu hp
  | batch _ _ ih =>
    intro pdu hp
    rcases List.mem_append.mp hp with hp | hp
    · exact ih pdu hp
    · exact reacts_onBatch _ _ pdu hp

/-! ## Phases -/

/-- A sender waits only for chunks of its file. -/
def Waits (x : Transfer) : Phase → Prop
  | .chunk ci => ci < x.totalChunks
  | _ => True

theorem sendAll_open {next : Phase} (h : next ≠ .returned) (pdus : List (Option Bytes)) :
    (sendAll next pdus).2 ≠ .returned := by
  rcases sendAll_phase next pdus with he | he <;> rw [he]
  · exact h
  · exact Phase.noConfusion

theorem waits_sendAll (next : Phase) (h : x.Waits next) (pdus : List (Option Bytes)) :
    x.Waits (sendAll next pdus).2 := by
  rcases sendAll_phase next pdus with he | he <;> rw [he]
  · exact h
  · trivial

theorem waits_sendChunk (ci : Nat) : x.Waits (x.sendChunk crc32 ci).2 := by
  unfold sendChunk
  split
  · next hc => exact waits_sendAll (.chunk ci) hc _
  · trivial

theorem sendChunk_open (ci : Nat) : (x.sendChunk crc32 ci).2 ≠ .returned := by
  unfold sendChunk
  split
  · exact sendAll_open Phase.noConfusion _
  · exact Phase.noConfusion

theorem waits_queryFailed (attempt : Nat) : x.Waits (x.queryFailed crc32 attempt).2 := by
  unfold queryFailed
  split
  · trivial
  · exact waits_sendChunk 0

theorem queryFailed_open (attempt : Nat) : (x.queryFailed crc32 attempt).2 ≠ .returned := by
  unfold queryFailed
  split
  · exact Phase.noConfusion
  · exact sendChunk_open 0

theorem waits_onTimeout (h : x.Waits phase) : x.Waits (x.onTimeout crc32 phase).2 := by
  cases phase with
  | query attempt => exact waits_queryFailed attempt
  | chunk ci => exact waits_sendAll (.chunk ci) h _
  | final => trivial
  | returned => trivial
  | raised => trivial

theorem onTimeout_open (h : phase ≠ .returned) : (x.onTimeout crc32 phase).2 ≠ .returned := by
  cases phase with
  | query attempt => exact queryFailed_open attempt
  | chunk ci => exact sendAll_open Phase.noConfusion _
  | final => exact Phase.noConfusion
  | returned => exact h
  | raised => exact Phase.noConfusion

theorem waits_onBatch (h : x.Waits phase) : x.Waits (x.onBatch crc32 phase batch).2 := by
  cases phase with
  | query attempt =>
    show x.Waits (x.onInfo crc32 attempt _).2
    unfold onInfo
    split
    · exact waits_queryFailed attempt
    · split
      · exact waits_queryFailed attempt
      · split
        · trivial
        · exact waits_sendChunk _
  | chunk ci =>
    show x.Waits (x.onChunkBatch crc32 ci batch).2
    unfold onChunkBatch
    split
    · trivial
    · trivial
    · split
      · exact waits_sendChunk _
      · split
        · exact waits_sendAll (.chunk ci) h _
        · exact h
  | final =>
    show x.Waits (onFinalBatch batch).2
    unfold onFinalBatch
    split <;> trivial
  | returned => trivial
  | raised => trivial

/-- **`send` returns only on a final ACK.** -/
theorem onBatch_returned (h : phase ≠ .returned) (hr : (x.onBatch crc32 phase batch).2 = .returned) :
    ∃ pdu ∈ batch, acksChunk ackFinal pdu = true := by
  cases phase with
  | query attempt =>
    exfalso
    revert hr
    show (x.onInfo crc32 attempt _).2 ≠ .returned
    unfold onInfo
    split
    · exact queryFailed_open attempt
    · split
      · exact queryFailed_open attempt
      · split
        · exact Phase.noConfusion
        · exact sendChunk_open _
  | chunk ci =>
    replace hr : (x.onChunkBatch crc32 ci batch).2 = .returned := hr
    unfold onChunkBatch at hr
    split at hr
    · cases hr
    · next ht => exact anyPdu_true ht
    · split at hr
      · exact absurd hr (sendChunk_open _)
      · split at hr
        · exact absurd hr (sendAll_open Phase.noConfusion _)
        · cases hr
  | final =>
    replace hr : (onFinalBatch batch).2 = .returned := hr
    unfold onFinalBatch at hr
    split at hr
    · cases hr
    · next ht => exact anyPdu_true ht
    · cases hr
  | returned => exact absurd rfl h
  | raised => cases hr

theorem Sends.waits (h : x.Sends crc32 sent phase) : x.Waits phase := by
  induction h with
  | send => exact waits_sendAll (.query 0) trivial _
  | timeout _ ih => exact waits_onTimeout ih
  | batch _ _ ih => exact waits_onBatch ih

end Transfer

end Cfdp
