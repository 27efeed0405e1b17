import Cfdp.Honest

/-!
# What the sender knows

The sender goes by the answers of the receiver alone: where it waits says what it has been
told (`Heard`). The receiver tells nothing that is not true of the file, so a session leaves
no chunk behind that is not in the file (`run_knows`). And the answers never bring it down:
it can read all of them, and send every packet they ask for (`run_never_raises`).
-/

namespace Cfdp

open Crash Prog Machine LittleEndian

/-- `pdu` tells the sender that chunk `j` is in the file. -/
def Tells (pdu : Bytes) (j : Nat) : Prop :=
  (acksChunk j pdu = true ∧ j ≠ ackFinal) ∨
    (pdu.head? = some PduType.resumeInfo.code ∧ j < (rd32 (pdu.drop 5)).toNat)

namespace Transfer

variable {crc32 : UInt32 → Bytes → UInt32} {x : Transfer} {phase next : Phase}
  {batch sent sent' : List Bytes} {k : Nat} {pdu : Bytes} {c : Option Bytes}

/-! ## What it has been told -/

/-- What the sender has been told when it waits in this phase. -/
def Heard (x : Transfer) (sent : List Bytes) : Phase → Prop
  | .chunk k => ∀ j, j < k → ∃ pdu ∈ sent, Tells pdu j
  | .final => ∀ j, j < x.totalChunks → ∃ pdu ∈ sent, Tells pdu j
  | .returned => ∃ pdu ∈ sent, acksChunk ackFinal pdu = true
  | _ => True

theorem Heard.mono (h : x.Heard sent phase) (hs : ∀ pdu ∈ sent, pdu ∈ sent') :
    x.Heard sent' phase := by
  cases phase with
  | query attempt => trivial
  | chunk k =>
    intro j hj
    obtain ⟨pdu, hpdu, ht⟩ := h j hj
    exact ⟨pdu, hs pdu hpdu, ht⟩
  | final =>
    intro j hj
    obtain ⟨pdu, hpdu, ht⟩ := h j hj
    exact ⟨pdu, hs pdu hpdu, ht⟩
  | returned =>
    obtain ⟨pdu, hpdu, ht⟩ := h
    exact ⟨pdu, hs pdu hpdu, ht⟩
  | raised => trivial

theorem heard_sendAll (h : x.Heard sent next) (pdus : List (Option Bytes)) :
    x.Heard sent (sendAll next pdus).2 := by
  rcases sendAll_phase next pdus with he | he <;> rw [he]
  · exact h
  · trivial

/-- The sender goes on to chunk `k` when it has been told of those before. -/
theorem heard_sendChunk (h : ∀ j, j < k → j < x.totalChunks → ∃ pdu ∈ sent, Tells pdu j) :
    x.Heard sent (x.sendChunk crc32 k).2 := by
  unfold sendChunk
  split
  · next hk =>
    have hchunk : x.Heard sent (.chunk k) := fun j hj => h j hj (by omega)
    exact heard_sendAll hchunk _
  · next hk => exact fun j hj => h j (by omega) hj

theorem heard_queryFailed (attempt : Nat) : x.Heard sent (x.queryFailed crc32 attempt).2 := by
  unfold queryFailed
  split
  · trivial
  · exact heard_sendChunk fun j hj => absurd hj (Nat.not_lt_zero j)

theorem heard_onTimeout (h : x.Heard sent phase) : x.Heard sent (x.onTimeout crc32 phase).2 := by
  cases phase with
  | query attempt => exact heard_queryFailed attempt
  | chunk k => exact heard_sendAll h _
  | final => exact h
  | returned => exact h
  | raised => trivial

theorem heard_onInfo (htot : x.totalChunks ≤ uint32Max.toNat) (hpdu : pdu ∈ sent) (attempt : Nat) :
    x.Heard sent (x.onInfo crc32 attempt pdu).2 := by
  unfold onInfo
  split
  · exact heard_queryFailed attempt
  next hshape =>
  split
  · exact heard_queryFailed attempt
  have hcode : pdu.head? = some PduType.resumeInfo.code := by
    by_contra hne
    exact hshape (.inr hne)
  have htell : ∀ j, j < (rd32 (pdu.drop 5)).toNat → ∃ pdu ∈ sent, Tells pdu j :=
    fun j hj => ⟨pdu, hpdu, .inr ⟨hcode, hj⟩⟩
  split
  · next hmax =>
    -- nothing is missing
    intro j hj
    refine htell j ?_
    rw [hmax]
    omega
  · exact heard_sendChunk fun j hj _ => htell j hj

theorem heard_onChunkBatch (h : x.Heard sent (.chunk k)) (hb : ∀ pdu ∈ batch, pdu ∈ sent) :
    x.Heard sent (x.onChunkBatch crc32 k batch).2 := by
  unfold onChunkBatch
  split
  · trivial
  · next hfinal =>
    obtain ⟨pdu, hpdu, hack⟩ := anyPdu_true hfinal
    exact ⟨pdu, hb pdu hpdu, hack⟩
  next hfinal =>
  split
  · next hthis =>
    have hk : k ≠ ackFinal := by
      intro he
      rw [he, hfinal] at hthis
      cases hthis
    obtain ⟨pdu, hpdu, hack⟩ := anyPdu_true hthis
    refine heard_sendChunk fun j hj _ => ?_
    rcases Nat.lt_succ_iff_lt_or_eq.mp hj with hj | rfl
    · exact h j hj
    · exact ⟨pdu, hb pdu hpdu, .inl ⟨hack, hk⟩⟩
  · split
    · exact heard_sendAll h _
    · exact h

theorem heard_onBatch (htot : x.totalChunks ≤ uint32Max.toNat) (h : x.Heard sent phase)
    (hr : phase.Reads batch) (hb : ∀ pdu ∈ batch, pdu ∈ sent) :
    x.Heard sent (x.onBatch crc32 phase batch).2 := by
  cases phase with
  | query attempt =>
    obtain ⟨pdu, rfl⟩ := List.length_eq_one_iff.mp hr
    exact heard_onInfo htot (hb pdu (List.mem_singleton_self _)) attempt
  | chunk k => exact heard_onChunkBatch h hb
  | final =>
    show x.Heard sent (onFinalBatch batch).2
    unfold onFinalBatch
    split
    · trivial
    · next hfinal =>
      obtain ⟨pdu, hpdu, hack⟩ := anyPdu_true hfinal
      exact ⟨pdu, hb pdu hpdu, hack⟩
    · exact h
  | returned => exact hr.elim
  | raised => exact hr.elim

/-! ## What it knows -/

/-- What holds of the destination `c` when the sender waits in this phase. -/
def Knows (x : Transfer) (c : Option Bytes) : Phase → Prop
  | .chunk k => ∀ j, j < k → x.ChunkStored c j
  | .final => c = some x.file
  | .returned => c = some x.file
  | _ => True

theorem Backed.told (h : x.Backed c pdu) {j : Nat} (hj : j < x.totalChunks) (ht : Tells pdu j) :
    x.ChunkStored c j := by
  rcases ht with ⟨hack, hne⟩ | ⟨hcode, hlt⟩
  · exact h.chunk j hne hack
  · exact h.info hcode j hj hlt

/-- What the sender has been told is so. -/
theorem Heard.knows (h : x.Heard sent phase) (hw : x.Waits phase) (hx : x.WellFormed)
    (ht : ∀ pdu ∈ sent, x.Backed c pdu) (hf : x.Fits c) : x.Knows c phase := by
  cases phase with
  | query attempt => trivial
  | chunk k =>
    intro j hj
    replace hw : k < x.totalChunks := hw
    obtain ⟨pdu, hpdu, htell⟩ := h j hj
    exact (ht pdu hpdu).told (by omega) htell
  | final =>
    have hall := eq_of_all_stored hx.chunkSize hx.totalChunks_pos fun j hj => by
      obtain ⟨pdu, hpdu, htell⟩ := h j hj
      exact (ht pdu hpdu).told hj htell
    rw [fits_iff.mp hf, List.append_nil] at hall
    exact hall
  | returned =>
    obtain ⟨pdu, hpdu, hack⟩ := h
    exact (ht pdu hpdu).final hack
  | raised => trivial

/-! ## What it can answer -/

/-- Every packet `pdu` asks for can be sent. -/
def Answerable (x : Transfer) (pdu : Bytes) : Prop :=
  isNak pdu = true → ∀ p ∈ x.onNak (pdu.drop 1), p.isSome = true

theorem anyPdu_ne_none {test : Bytes → Bool} (h : ∀ pdu ∈ batch, pdu ≠ []) :
    anyPdu test batch ≠ none := by
  induction batch with
  | nil => exact Option.some_ne_none _
  | cons p batch ih =>
    unfold anyPdu
    rw [if_neg (h p List.mem_cons_self)]
    split
    · exact Option.some_ne_none _
    · exact ih fun q hq => h q (List.mem_cons_of_mem p hq)

theorem sendAll_some {pdus : List (Option Bytes)} (h : ∀ p ∈ pdus, p.isSome = true) :
    (sendAll next pdus).2 = next := by
  induction pdus with
  | nil => rfl
  | cons p pdus ih =>
    obtain ⟨pdu, rfl⟩ := Option.isSome_iff_exists.mp (h p List.mem_cons_self)
    exact ih fun q hq => h q (List.mem_cons_of_mem _ hq)

theorem sendChunk_ne_raised (hx : x.WellFormed) (crc32 : UInt32 → Bytes → UInt32) (k : Nat) :
    (x.sendChunk crc32 k).2 ≠ .raised := by
  by_cases hk : k < x.totalChunks
  · rw [hx.sendChunk_eq crc32 hk]
    exact Phase.noConfusion
  · unfold sendChunk
    rw [if_neg hk]
    exact Phase.noConfusion

theorem queryFailed_ne_raised (hx : x.WellFormed) (crc32 : UInt32 → Bytes → UInt32) (attempt : Nat) :
    (x.queryFailed crc32 attempt).2 ≠ .raised := by
  unfold queryFailed
  split
  · exact Phase.noConfusion
  · exact sendChunk_ne_raised hx crc32 0

theorem onTimeout_ne_raised (hx : x.WellFormed) (env : Env) (h : phase ≠ .raised) :
    (x.onTimeout env.crc32 phase).2 ≠ .raised := by
  cases phase with
  | query attempt => exact queryFailed_ne_raised hx env.crc32 attempt
  | chunk k =>
    unfold onTimeout
    rw [hx.metadataPdu env]
    exact Phase.noConfusion
  | final => exact Phase.noConfusion
  | returned => exact h
  | raised => exact h

theorem onBatch_ne_raised (hx : x.WellFormed) (env : Env) (h : phase ≠ .raised)
    (hne : ∀ pdu ∈ batch, pdu ≠ []) (ha : ∀ pdu ∈ batch, x.Answerable pdu) :
    (x.onBatch env.crc32 phase batch).2 ≠ .raised := by
  cases phase with
  | query attempt =>
    show (x.onInfo env.crc32 attempt _).2 ≠ .raised
    unfold onInfo
    split
    · exact queryFailed_ne_raised hx env.crc32 attempt
    · split
      · exact queryFailed_ne_raised hx env.crc32 attempt
      · split
        · exact Phase.noConfusion
        · exact sendChunk_ne_raised hx env.crc32 _
  | chunk k =>
    show (x.onChunkBatch env.crc32 k batch).2 ≠ .raised
    unfold onChunkBatch
    split
    · next hnone => exact absurd hnone (anyPdu_ne_none hne)
    · exact Phase.noConfusion
    · split
      · exact sendChunk_ne_raised hx env.crc32 _
      · split
        · next nak hnak =>
          have hmem : nak ∈ batch := List.mem_reverse.mp (List.mem_of_find?_eq_some hnak)
          rw [sendAll_some]
          · exact Phase.noConfusion
          · intro p hp
            rcases List.mem_append.mp hp with hp | hp
            · exact ha nak hmem (List.find?_some hnak) p hp
            · rw [List.mem_singleton.mp hp]
              rfl
        · exact Phase.noConfusion
  | final =>
    show (onFinalBatch batch).2 ≠ .raised
    unfold onFinalBatch
    split
    · next hnone => exact absurd hnone (anyPdu_ne_none hne)
    · exact Phase.noConfusion
    · exact Phase.noConfusion
  | returned => exact h
  | raised => exact absurd rfl h

/-- A NAK that is proper for a record of `x` can be answered. -/
theorem answerable_nak {env : Env} {s : JournalState} {nak : NakPdu} {ci : UInt32} (hx : x.Sizes)
    (hm : x.Matches env s) (h : nak.Proper s ci) : x.Answerable (serializeNak nak) := by
  intro _ p hp
  obtain ⟨q, -, ho⟩ : ∃ q ∈ nak.named, x.Original q p := by
    have hall := onNak_original hx hm h
    obtain ⟨i, hi, rfl⟩ := List.getElem_of_mem hp
    have hi' : i < nak.named.length := by
      rw [hall.length_eq]
      exact hi
    exact ⟨_, List.getElem_mem hi', hall.get hi' hi⟩
  obtain ⟨raw, d, rfl, -⟩ := ho.data
  rfl

/-- Every NAK of a step is proper for a record of the transfer. -/
theorem NodeInv.naks {env : Env} {n n' : Node} {a : Action} {ms : List Moment}
    (h : x.NodeInv env 0 n) (hok : n.Ok) (hx : x.Sizes)
    (hs : Node.step env n a = some (ms, n')) :
    ∃ out, n'.sent = n.sent ++ out ∧ ∀ pdu ∈ out, isNak pdu = true →
      ∃ nak s ci, pdu = serializeNak nak ∧ x.Matches env s ∧ nak.Proper s ci := by
  obtain ⟨out, hsent, hnak⟩ := hok.nak_proper hs
  refine ⟨out, hsent, fun pdu hpdu hk => ?_⟩
  obtain ⟨w, rfl, hact, hproper⟩ := hnak pdu hpdu hk
  have hinv : x.Inv env 0 w := h
  have hm := hinv.record hact
  obtain ⟨nak, ci, rfl, hp, -⟩ := hproper (hm.regular hx)
  exact ⟨nak, w.rx.state, ci, rfl, hm, hp⟩

/-- The PDUs of the transfer are tolerated. -/
theorem Surroundings.noisy {env : Env} {n : Node} {a : Action} (hx : x.WellFormed)
    (h : x.Surroundings env n a) : x.Noisy env n a := by
  cases n with
  | up w =>
    cases a with
    | recv raw o cut => exact ⟨tolerates_emits hx w.rx h.1, h.2⟩
    | crash => trivial
    | boot garbage o cut => exact h
  | down disk log =>
    cases a with
    | recv raw o cut => exact ⟨trivial, h.2⟩
    | crash => trivial
    | boot garbage o cut => exact h

end Transfer

namespace System

variable {env : Env} {x : Transfer} {s s' : System} {m : Move} {ms hist : List Moment}

/-! ## Sessions of one transfer -/

/-- What holds between the moves of sessions of `x`, of the two sides together. -/
structure Informed (env : Env) (x : Transfer) (s : System) : Prop extends Sound env x s where
  told : x.Told env s.node.disk s.node.sent
  heard : x.Heard s.node.sent s.phase
  waits : x.Waits s.phase
  answerable : ∀ pdu ∈ s.node.sent, x.Answerable pdu
  running : s.phase ≠ .raised

theorem totalChunks_le (hx : x.WellFormed) : x.totalChunks ≤ uint32Max.toNat := by
  have htot := hx.totalChunks
  have hmax : uint32Max.toNat = 2 ^ 32 - 1 := rfl
  omega

/-- A step of the receiver. -/
theorem Informed.receive {n' : Node} {a : Action} (h : Informed env x s) (hx : x.WellFormed)
    (ha : x.Surroundings env s.node a) (hs : Node.step env s.node a = some (ms, n'))
    (hsound : Sound env x { s with node := n' }) : Informed env x { s with node := n' } := by
  have hfaithful : x.Faithful env s.node := ⟨h.held, h.told⟩
  obtain ⟨⟨-, htold⟩, -⟩ := hfaithful.step hx (Transfer.Surroundings.noisy hx ha) hs
  obtain ⟨out, hsent, hnak⟩ := h.held.naks h.ok hx.toSizes hs
  refine ⟨hsound, htold, h.heard.mono fun pdu hpdu => ?_, h.waits, fun pdu hpdu hk => ?_, h.running⟩
  · show pdu ∈ n'.sent
    rw [hsent]
    exact List.mem_append_left _ hpdu
  · replace hpdu : pdu ∈ n'.sent := hpdu
    rw [hsent] at hpdu
    rcases List.mem_append.mp hpdu with hpdu | hpdu
    · exact h.answerable pdu hpdu hk
    · obtain ⟨nak, s, ci, rfl, hm, hp⟩ := hnak pdu hpdu hk
      exact Transfer.answerable_nak hx.toSizes hm hp hk

theorem Informed.step (h : Informed env x s) (hx : x.WellFormed) (hm : Retries x s m)
    (hs : s.step env m = some (ms, s')) : Informed env x s' := by
  have hsound := h.toSound.step hx.tid hm hs
  cases m with
  | start y =>
    obtain rfl := hm.2 y rfl
    cases hs
    have hphase := congrArg Prod.snd (send_eq hx env)
    refine ⟨hsound, h.told, ?_, ?_, h.answerable, ?_⟩
    · show y.Heard s.node.sent (y.send env.crc32).2
      rw [hphase]
      trivial
    · show y.Waits (y.send env.crc32).2
      rw [hphase]
      trivial
    · show (y.send env.crc32).2 ≠ .raised
      rw [hphase]
      exact Phase.noConfusion
  | timeout =>
    cases hs
    refine ⟨hsound, h.told, ?_, ?_, h.answerable, ?_⟩
    · show x.Heard s.node.sent (s.transfer.onTimeout env.crc32 s.phase).2
      rw [h.transfer]
      exact Transfer.heard_onTimeout h.heard
    · show x.Waits (s.transfer.onTimeout env.crc32 s.phase).2
      rw [h.transfer]
      exact Transfer.waits_onTimeout h.waits
    · show (s.transfer.onTimeout env.crc32 s.phase).2 ≠ .raised
      rw [h.transfer]
      exact Transfer.onTimeout_ne_raised hx env h.running
  | batch pdus =>
    simp only [System.step] at hs
    split at hs
    · next hb =>
      cases hs
      refine ⟨hsound, h.told, ?_, ?_, h.answerable, ?_⟩
      · show x.Heard s.node.sent (s.transfer.onBatch env.crc32 s.phase pdus).2
        rw [h.transfer]
        exact Transfer.heard_onBatch (totalChunks_le hx) h.heard hb.1 hb.2
      · show x.Waits (s.transfer.onBatch env.crc32 s.phase pdus).2
        rw [h.transfer]
        exact Transfer.waits_onBatch h.waits
      · show (s.transfer.onBatch env.crc32 s.phase pdus).2 ≠ .raised
        rw [h.transfer]
        exact Transfer.onBatch_ne_raised hx env h.running
          (fun pdu hpdu => (h.told pdu (hb.2 pdu hpdu)).nonempty)
          fun pdu hpdu => h.answerable pdu (hb.2 pdu hpdu)
    · cases hs
  | receiver a =>
    have hproper := (h.toSole.step hm hs).2
    simp only [System.step] at hs
    split at hs
    · obtain ⟨⟨ms', n'⟩, hn, hr⟩ := Option.map_eq_some_iff.mp hs
      cases hr
      have ha : x.Surroundings env s.node a := by
        rw [← h.transfer]
        exact hproper
      exact h.receive hx ha hn hsound
    · cases hs

theorem informed_first {n : Node} (hx : x.WellFormed) (hn : n.Fresh)
    (hd : x.Fits (n.disk.files (x.path env))) : Informed env x (first env n x) := by
  have hphase : (first env n x).phase = .query 0 := congrArg Prod.snd (send_eq hx env)
  have hsent : (first env n x).node.sent = [] := by
    cases n with
    | up w => exact hn.elim
    | down disk log =>
      obtain ⟨-, rfl⟩ := hn
      rfl
  refine ⟨sound_first hn hd, (Transfer.faithful_fresh hn hd).2, ?_, ?_, ?_, ?_⟩
  · rw [hphase]
    trivial
  · rw [hphase]
    trivial
  · rw [hsent]
    exact fun pdu hpdu => by cases hpdu
  · rw [hphase]
    exact Phase.noConfusion

theorem Informed.run (h : Informed env x s) (hx : x.WellFormed) (hr : Run env (Retries x) s hist s') :
    Informed env x s' :=
  hr.inv (I := fun _ s => Informed env x s) h fun _ _ _ _ _ hi hm hs => hi.step hx hm hs

theorem Informed.knows (h : Informed env x s) (hx : x.WellFormed) :
    x.Knows (s.node.disk.files (x.path env)) s.phase := by
  have hfits : x.Fits (s.node.disk.files (x.path env)) := by
    have hheld := h.held
    cases hn : s.node with
    | up w => rw [hn] at hheld; exact hheld.fits
    | down disk log => rw [hn] at hheld; exact hheld.fits
  exact h.heard.knows h.waits hx h.told hfits

variable {n : Node}

/-- **A session leaves no chunk behind that is not in the file.** In every run of sessions of a
well-formed transfer, whatever is lost, repeated or delayed and wherever the receiver crashes:
while the sender waits for chunk `k`, all chunks before it are in the destination file, and when
it waits for the final ACK, or has returned, the destination is the source file. -/
theorem run_knows (hx : x.WellFormed) (hfresh : n.Fresh) (hd : x.Fits (n.disk.files (x.path env)))
    (h : Run env (Retries x) (first env n x) hist s) :
    x.Knows (s.node.disk.files (x.path env)) s.phase :=
  ((informed_first hx hfresh hd).run hx h).knows hx

/-- The receiver crashes after it has acknowledged the first of two chunks. -/
theorem run_knows_small : ∃ hist s, Run sampleEnv (Retries (Transfer.small [0x61, 0x62]))
    (first sampleEnv unusedNode (Transfer.small [0x61, 0x62])) hist s ∧ s.phase = .chunk 1 ∧
      s.node.world? = none ∧ (Transfer.small [0x61, 0x62]).ChunkStored
        (s.node.disk.files ((Transfer.small [0x61, 0x62]).path sampleEnv)) 0 := by
  have hrun : (Machine.exec (System.step sampleEnv)
      (first sampleEnv unusedNode (Transfer.small [0x61, 0x62]))
      [.receiver powerOn, .receiver (deliver ((Transfer.small [0x61, 0x62]).metadataRaw sampleEnv.crc32)),
        .timeout, .timeout, .timeout,
        .receiver (deliver ((Transfer.small [0x61, 0x62]).packetRaw 0 0)),
        .batch [AckPdu.raw ⟨1, 0⟩], .receiver .crash]).any (fun r =>
          decide (r.2.phase = .chunk 1) && r.2.node.world?.isNone) = true := by
    decide +kernel
  simp only [Option.any_eq_true, Prod.exists, Bool.and_eq_true, decide_eq_true_eq,
    Option.isNone_iff_eq_none] at hrun
  obtain ⟨hist, s, hr, hphase, hnone⟩ := hrun
  have hok : Run sampleEnv (Retries (Transfer.small [0x61, 0x62]))
      (first sampleEnv unusedNode (Transfer.small [0x61, 0x62])) hist s := by
    refine Machine.exec_run hr fun m hm s _ _ => ?_
    simp only [List.mem_cons, List.not_mem_nil, or_false] at hm
    rcases hm with rfl | rfl | rfl | rfl | rfl | rfl | rfl | rfl
    · exact ⟨smooth_noFaults, fun y hy => by cases hy⟩
    · exact ⟨usual_of_smooth s, fun y hy => by cases hy⟩
    · exact ⟨trivial, fun y hy => by cases hy⟩
    · exact ⟨trivial, fun y hy => by cases hy⟩
    · exact ⟨trivial, fun y hy => by cases hy⟩
    · exact ⟨usual_of_smooth s, fun y hy => by cases hy⟩
    · exact ⟨trivial, fun y hy => by cases hy⟩
    · exact ⟨trivial, fun y hy => by cases hy⟩
  have hknows := run_knows (Transfer.wellFormed_small (by simp) (by simp)) unusedNode_fresh
    (fun g hg => by cases hg) hok
  rw [hphase] at hknows
  exact ⟨hist, s, hok, hphase, hnone, hknows 0 Nat.one_pos⟩

/-- **The answers never bring the sender down.** In every run of sessions of a well-formed
transfer, no session raises: every PDU of the receiver can be read, and every packet that one
of its NAKs names can be built. -/
theorem run_never_raises (hx : x.WellFormed) (hfresh : n.Fresh)
    (hd : x.Fits (n.disk.files (x.path env))) (h : Run env (Retries x) (first env n x) hist s) :
    s.phase ≠ .raised ∧ ∀ pdu ∈ s.node.sent, pdu ≠ [] ∧ x.Answerable pdu := by
  have hinf := (informed_first hx hfresh hd).run hx h
  exact ⟨hinf.running, fun pdu hpdu => ⟨(hinf.told pdu hpdu).nonempty, hinf.answerable pdu hpdu⟩⟩

/-- The receiver asks for the only packet of a file, which is sent again. -/
theorem run_never_raises_small : ∃ hist s, Run sampleEnv (Retries (Transfer.small [0x61]))
    (first sampleEnv unusedNode (Transfer.small [0x61])) hist s ∧
      serializeNak ⟨1, [⟨0, 0, 0⟩]⟩ ∈ s.node.sent ∧ s.phase ≠ .raised := by
  have hrun : (play [.receiver powerOn,
      .receiver (deliver ((Transfer.small [0x61]).metadataRaw sampleEnv.crc32)), .timeout, .timeout,
      .timeout, .receiver (deliver ((Transfer.small [0x61]).eofPdu sampleEnv.crc32)),
      .batch [serializeNak ⟨1, [⟨0, 0, 0⟩]⟩]]).any (fun r =>
        decide (serializeNak ⟨1, [⟨0, 0, 0⟩]⟩ ∈ r.2.node.sent)) = true := by
    decide +kernel
  simp only [Option.any_eq_true, Prod.exists, decide_eq_true_eq] at hrun
  obtain ⟨hist, s, hr, hnak⟩ := hrun
  have hok : Run sampleEnv (Retries (Transfer.small [0x61]))
      (first sampleEnv unusedNode (Transfer.small [0x61])) hist s := by
    refine Machine.exec_run hr fun m hm s _ _ => ?_
    simp only [List.mem_cons, List.not_mem_nil, or_false] at hm
    rcases hm with rfl | rfl | rfl | rfl | rfl | rfl | rfl
    · exact ⟨smooth_noFaults, fun y hy => by cases hy⟩
    · exact ⟨usual_of_smooth s, fun y hy => by cases hy⟩
    · exact ⟨trivial, fun y hy => by cases hy⟩
    · exact ⟨trivial, fun y hy => by cases hy⟩
    · exact ⟨trivial, fun y hy => by cases hy⟩
    · exact ⟨usual_of_smooth s, fun y hy => by cases hy⟩
    · exact ⟨trivial, fun y hy => by cases hy⟩
  obtain ⟨hphase, -⟩ := run_never_raises (Transfer.wellFormed_small (by simp) (by simp))
    unusedNode_fresh (fun g hg => by cases hg) hok
  exact ⟨hist, s, hok, hnak, hphase⟩

end System

end Cfdp
