import Cfdp.BootSafety
import Cfdp.Honest

/-!
# The receiver process

`main` of `receiver_main.cpp`: it boots the receiver and handles PDUs until a transfer has
ended and the line has been quiet for a while; an exception ends it with status 1. A process
is a node with a place in `main` (`MainState`), so its runs are runs of the node
(`Run.node`).

A process that returns 0 has its file in place (`run_exits`). But `was_active` is set only by
a PDU that leaves a transfer active, not at boot: a process that finds at boot that the
transfer is complete confirms it and then waits forever (`run_stuck`).
-/

namespace Cfdp

open Crash Prog Machine

/-! ## main -/

/-- Where a process is in `main`. -/
inductive MainState where
  /-- not started, or killed -/
  | stopped
  /-- in `while (true)` -/
  | loop (wasActive : Bool)
  /-- in the loop on `poll` after the end of a transfer -/
  | linger
  /-- `main` has returned -/
  | exited (status : Nat)
  deriving DecidableEq

/-- What happens to a process. -/
inductive MainAction where
  /-- a new process: the constructor and `on_boot` -/
  | start (garbage : JournalState) (o : Oracle) (cut : Option Nat)
  /-- `recv` returns a PDU -/
  | pdu (raw : Bytes) (o : Oracle) (cut : Option Nat)
  /-- `recv` throws -/
  | readError
  /-- `poll` returns 0 -/
  | quiet
  | kill

structure Receiver where
  node : Node
  main : MainState

/-- The actions of the node. -/
def MainAction.node : MainAction → Action
  | .start garbage o cut => .boot garbage o cut
  | .pdu raw o cut => .recv raw o cut
  | _ => .crash

def MainState.running : MainState → Bool
  | .loop _ => true
  | .linger => true
  | _ => false

/-- Each loop reads; only the second polls. -/
def MainState.allows (main : MainState) : MainAction → Bool
  | .start _ _ _ => !main.running
  | .quiet => main == .linger
  | _ => main.running

/-- The tests after `on_pdu_received`, if it leaves a transfer `active`. -/
def MainState.after (active : Bool) : MainState → MainState
  | .loop wasActive => if active then .loop true else if wasActive then .linger else .loop false
  | main => main

/-- After a handler: it has returned, thrown, or been cut by a crash. -/
def MainState.handled (main : CfdpReceiver → MainState) (cut : Option Nat) : Node → MainState
  | .up w => main w.rx
  | .down _ _ => if cut = none then .exited 1 else .stopped

def MainState.next (main : MainState) : MainAction → Node → MainState
  | .start _ _ cut => handled (fun _ => .loop false) cut
  | .pdu _ _ cut => handled (fun rx => main.after rx.transferActive) cut
  | .readError => fun _ => .exited 1
  | .quiet => fun _ => .exited 0
  | .kill => fun _ => .stopped

namespace Receiver

def step (env : Env) (r : Receiver) (a : MainAction) : Option (List Moment × Receiver) :=
  if r.main.allows a then
    (Node.step env r.node a.node).map fun q => (q.1, ⟨q.2, r.main.next a q.2⟩)
  else none

abbrev Run (env : Env) (ok : Receiver → MainAction → Prop) (r : Receiver) (hist : List Moment)
    (r' : Receiver) : Prop :=
  Machine.Run (step env) ok r hist r'

variable {env : Env} {ok : Receiver → MainAction → Prop} {r r' r₁ : Receiver} {a : MainAction}
  {ms hist hist' : List Moment} {x : Transfer}

theorem step_eq_some : r.step env a = some (ms, r') ↔
    r.main.allows a = true ∧ Node.step env r.node a.node = some (ms, r'.node) ∧
      r'.main = r.main.next a r'.node := by
  unfold step
  constructor
  · intro h
    split at h
    · next ha =>
      obtain ⟨⟨ms', n'⟩, hs, hr⟩ := Option.map_eq_some_iff.mp h
      cases hr
      exact ⟨ha, hs, rfl⟩
    · cases h
  · rintro ⟨ha, hs, hm⟩
    rw [if_pos ha, hs, Option.map_some, ← hm]

/-- The runs of a process are runs of its node. -/
theorem Run.node {ok' : Node → Action → Prop} (h : Run env ok r hist r')
    (hok : ∀ r a, ok r a → ok' r.node a.node) : Node.Run env ok' r.node hist r'.node := by
  induction h with
  | start => exact .start
  | step _ ha hs ih => exact ih.step (hok _ _ ha) (step_eq_some.mp hs).2.1

/-! ## The end of a transfer -/

/-- What arrives is tolerated, and no call fails. -/
def Noisy (env : Env) (x : Transfer) (r : Receiver) (a : MainAction) : Prop :=
  x.Noisy env r.node a.node

end Receiver

namespace Transfer

variable {env : Env} {x : Transfer} {o : Oracle} {w : World} {raw : Bytes} {rx : CfdpReceiver}

/-- The transfer has ended, and none since. -/
structure Ended (x : Transfer) (rx : CfdpReceiver) : Prop where
  idle : rx.transferActive = false
  acked : rx.lastAckedId = x.tid

theorem complete_stays (ha : rx.transferActive = true) (ht : rx.state.transactionId = x.tid) :
    (rx.complete true).1.transferActive = true ∨ x.Ended (rx.complete true).1 := by
  unfold CfdpReceiver.complete
  cases rx.completion with
  | silent => exact .inl ha
  | nak pdu => exact .inl ha
  | verify => exact .inr ⟨rfl, ht⟩

/-- The transfer of a record that ends does so by its final ACK. -/
theorem complete_acked (ha : rx.transferActive = true) (ht : rx.state.transactionId = x.tid)
    (hidle : (rx.complete true).1.transferActive = false) : (rx.complete true).2 = [x.finalAck] := by
  unfold CfdpReceiver.complete at hidle ⊢
  cases hc : rx.completion with
  | silent =>
    rw [hc] at hidle
    cases ha.symm.trans hidle
  | nak pdu =>
    rw [hc] at hidle
    cases ha.symm.trans hidle
  | verify =>
    show [AckPdu.raw ⟨rx.state.transactionId, uint32Max⟩] = [AckPdu.raw ⟨x.tid, uint32Max⟩]
    rw [ht]

/-- An active transfer goes on, or ends by its final ACK. -/
theorem reply_ends (ha : rx.transferActive = true) (ht : rx.state.transactionId = x.tid) :
    (rx.reply env o true raw).1.transferActive = true ∨ x.Ended (rx.reply env o true raw).1 := by
  unfold CfdpReceiver.reply
  cases decodePdu raw with
  | none => exact .inl ha
  | some pdu =>
    cases pdu with
    | metadata m =>
      simp only [CfdpReceiver.replyPdu, CfdpReceiver.replyMetadata]
      split
      · exact .inl ha
      · split
        · exact .inl rfl
        · exact .inl ha
    | data d =>
      simp only [CfdpReceiver.replyPdu, CfdpReceiver.replyData]
      split
      · next hacc =>
        have hacc := CfdpReceiver.acceptsData_iff.mp hacc
        split
        · exact .inl (by rw [CfdpReceiver.see_transferActive]; exact ha)
        · split
          · have hact := CfdpReceiver.flushed_take_active hacc d.chunkIndex
            simp only [CfdpReceiver.replyFlush]
            split
            · refine complete_stays hact ?_
              rw [CfdpReceiver.flushed_take_state]
              exact ht
            · exact .inl hact
          · exact .inl (by rw [CfdpReceiver.take_transferActive]; exact ha)
      · exact .inl ha
    | eof e =>
      simp only [CfdpReceiver.replyPdu, CfdpReceiver.replyEof]
      split
      · exact complete_stays ha ht
      · exact .inl ha
    | resumeQuery q => exact .inl ha

/-- After its end nothing tolerated starts it again. -/
theorem Ended.reply (h : x.Ended rx) (ht : x.Tolerates env rx raw) (v : Bool) :
    (rx.reply env o v raw).1 = rx := by
  unfold CfdpReceiver.reply
  cases hd : decodePdu raw with
  | none => rfl
  | some pdu =>
    cases pdu with
    | metadata m =>
      have hno : ¬ rx.accepts m = true := by
        intro hacc
        obtain ⟨name, -, rfl⟩ := ht.starts m hd hacc
        have hrep := CfdpReceiver.accepts_repeatsAck hacc
        unfold CfdpReceiver.repeatsAck at hrep
        rw [h.idle, h.acked] at hrep
        simp [metadata] at hrep
      simp only [CfdpReceiver.replyPdu, CfdpReceiver.replyMetadata, if_neg hno]
      split <;> rfl
    | data d =>
      have hno : ¬ rx.acceptsData d = true := by
        intro hacc
        have ha := (CfdpReceiver.acceptsData_iff.mp hacc).active
        rw [h.idle] at ha
        cases ha
      simp only [CfdpReceiver.replyPdu, CfdpReceiver.replyData, if_neg hno]
    | eof e =>
      have hno : ¬ rx.acceptsEof e = true := by
        intro hacc
        have ha := CfdpReceiver.active_of_acceptsEof hacc
        rw [h.idle] at ha
        cases ha
      simp only [CfdpReceiver.replyPdu, CfdpReceiver.replyEof, if_neg hno]
    | resumeQuery q => rfl

/-- A tolerated PDU gets the reply of a receiver whose file verifies. -/
theorem Live.tolerates (h : x.Live env w) (hx : x.WellFormed) (hc : Crc.Composes env.crc32)
    (ho : o.Smooth) (ht : x.Tolerates env w.rx raw) :
    ∃ w', w.receive env (raw, o) = some w' ∧ x.Live env w' ∧
      w.Replied (w.rx.reply env o true raw) w' := by
  obtain ⟨w', hw', hheld⟩ := receives_of_wp ((inv_iff.mp h.inv).tolerates hx (.inl rfl) ho ht)
  exact h.replied hx hc ho hw' (inv_iff.mpr hheld) ht.starts

theorem Noisy.within {n : Node} {a : Action} (h : x.Noisy env n a) :
    a.Within (fun _ => True) Oracle.Smooth := by
  cases n with
  | up w =>
    cases a with
    | recv raw o cut => exact ⟨trivial, h.2⟩
    | crash => trivial
    | boot garbage o cut => exact h
  | down disk log => exact h

theorem Noisy.journalWorks {n : Node} {a : Action} (h : x.Noisy env n a) : JournalWorks n a := by
  have hw := Noisy.within h
  cases a with
  | recv raw o cut => exact ⟨trivial, hw.2.journal⟩
  | crash => trivial
  | boot garbage o cut => exact Oracle.Smooth.journal hw

end Transfer

namespace Receiver

variable {env : Env} {x : Transfer} {r r' r₁ r₂ : Receiver} {a : MainAction} {ms hist hist' : List Moment}

/-- The file is in place, and nothing is left to resume. -/
structure Complete (env : Env) (x : Transfer) (disk : Disk) : Prop where
  file : disk.files (x.path env) = some x.file
  journal : disk.stateBin = none

/-- What a place in `main` says about the node. -/
def Place (env : Env) (x : Transfer) (n : Node) : MainState → Prop
  | .stopped => n.world? = none
  | .loop wasActive => ∃ w, n = .up w ∧ (wasActive = true → w.rx.transferActive = true)
  | .linger => ∃ w, n = .up w ∧ x.Ended w.rx
  | .exited status => n.world? = none ∧ (status = 1 ∨ status = 0 ∧ Complete env x n.disk)

/-- The invariant of a process. -/
structure Inv (env : Env) (x : Transfer) (r : Receiver) : Prop where
  held : x.NodeInv env 0 r.node
  ok : r.node.Ok
  durable : r.node.Durable
  place : Place env x r.node r.main

theorem Inv.up (h : Inv env x r) (hr : r.main.running = true) : ∃ w, r.node = .up w := by
  have hp := h.place
  cases hm : r.main with
  | stopped => rw [hm] at hr; cases hr
  | loop wasActive =>
    rw [hm] at hp
    obtain ⟨w, hn, -⟩ := hp
    exact ⟨w, hn⟩
  | linger =>
    rw [hm] at hp
    obtain ⟨w, hn, -⟩ := hp
    exact ⟨w, hn⟩
  | exited status => rw [hm] at hr; cases hr

theorem Inv.live {w : World} (h : Inv env x r) (hn : r.node = .up w) : x.Live env w := by
  have hinv := h.held
  have hok := h.ok
  rw [hn] at hinv hok
  exact ⟨hinv, hok.1⟩

theorem Inv.complete {w : World} (h : Inv env x r) (hn : r.node = .up w) (he : x.Ended w.rx) :
    Complete env x w.disk := by
  have hdur := h.durable
  rw [hn] at hdur
  have hagrees : Agrees w := hdur.2.1
  unfold Agrees at hagrees
  rw [he.idle, if_neg Bool.false_ne_true] at hagrees
  exact ⟨(h.live hn).inv.acked he.acked, hagrees⟩

/-- A handler that has thrown or been cut leaves the process stopped, or exited with status 1. -/
theorem place_handled (main : CfdpReceiver → MainState) (cut : Option Nat) {n : Node}
    (hup : ∀ w, n = .up w → Place env x n (main w.rx)) :
    Place env x n (MainState.handled main cut n) := by
  cases n with
  | up w => exact hup w rfl
  | down disk log =>
    show Place env x (.down disk log) (if cut = none then .exited 1 else .stopped)
    split
    · exact ⟨rfl, .inl rfl⟩
    · exact rfl

/-- A PDU that is handled to its end. -/
theorem place_after {w w' : World} {raw : Bytes} {o : Oracle} (h : Inv env x r)
    (hn : r.node = .up w) (ht : x.Tolerates env w.rx raw)
    (hrun : r.main.running = true) (hrx : w'.rx = (w.rx.reply env o true raw).1) :
    Place env x (.up w') (r.main.after w'.rx.transferActive) := by
  have hp := h.place
  rw [hn] at hp
  -- an active transfer goes on, or has ended
  have hends (ha : w.rx.transferActive = true) :
      w'.rx.transferActive = true ∨ x.Ended w'.rx := by
    rw [hrx]
    exact Transfer.reply_ends ha ((h.live hn).inv.record ha).tid
  cases hm : r.main with
  | stopped => rw [hm] at hrun; cases hrun
  | exited status => rw [hm] at hrun; cases hrun
  | loop wasActive =>
    rw [hm] at hp
    obtain ⟨v, hv, hact⟩ := hp
    cases hv
    unfold MainState.after
    cases ha' : w'.rx.transferActive with
    | true => exact ⟨w', rfl, fun _ => ha'⟩
    | false =>
      cases wasActive with
      | true => exact ⟨w', rfl, (hends (hact rfl)).resolve_left (by rw [ha']; exact Bool.false_ne_true)⟩
      | false => exact ⟨w', rfl, fun hf => by cases hf⟩
  | linger =>
    rw [hm] at hp
    obtain ⟨v, hv, hended⟩ := hp
    cases hv
    refine ⟨w', rfl, ?_⟩
    rw [hrx, hended.reply ht]
    exact hended

theorem step_up_uncut {w w' : World} {raw : Bytes} {o : Oracle} {cut : Option Nat}
    (h : Node.step env (.up w) (.recv raw o cut) = some (ms, .up w')) : cut = none := by
  cases cut with
  | none => rfl
  | some k =>
    simp only [Node.step, Node.finish, Option.map_eq_some_iff] at h
    obtain ⟨-, ⟨y, -, rfl⟩, hr⟩ := h
    cases hr

theorem Inv.step (h : Inv env x r) (hx : x.WellFormed) (hc : Crc.Composes env.crc32)
    (ha : Noisy env x r a) (hs : r.step env a = some (ms, r')) : Inv env x r' := by
  obtain ⟨hallows, hnode, hmain⟩ := step_eq_some.mp hs
  have hnoisy : x.Noisy env r.node a.node := ha
  refine ⟨(h.held.noisy hx hnoisy hnode).1, Node.ok_step h.ok hnode,
    (h.durable.step (Transfer.Noisy.journalWorks hnoisy) hnode).1, ?_⟩
  obtain ⟨n', main'⟩ := r'
  obtain rfl : main' = r.main.next a n' := hmain
  have hnode : Node.step env r.node a.node = some (ms, n') := hnode
  -- what ends a process at once, when it waits for a PDU
  have hcrashed {w : World} (hn : r.node = .up w) (hcrash : a.node = .crash) : n' = w.crashed := by
    rw [hn, hcrash] at hnode
    exact (Prod.mk.inj (Option.some.inj hnode)).2.symm
  cases a with
  | start garbage o cut =>
    exact place_handled (fun _ => .loop false) cut fun w hn => ⟨w, hn, nofun⟩
  | pdu raw o cut =>
    obtain ⟨w, hn⟩ := h.up hallows
    refine place_handled (fun rx => r.main.after rx.transferActive) cut fun w' hn' => ?_
    have ha' : x.Noisy env r.node (.recv raw o cut) := ha
    rw [hn] at ha'
    subst hn'
    rw [MainAction.node, hn] at hnode
    cases step_up_uncut hnode
    obtain ⟨y, hy, -, hrep⟩ := (h.live hn).tolerates hx hc ha'.2 ha'.1
    cases hy.symm.trans (Node.next_eq_some.mpr ⟨ms, hnode⟩)
    exact place_after h hn ha'.1 hallows hrep.1
  | readError =>
    obtain ⟨w, hn⟩ := h.up hallows
    rw [hcrashed hn rfl]
    exact ⟨rfl, .inl rfl⟩
  | quiet =>
    have hp := h.place
    rw [beq_iff_eq.mp hallows] at hp
    obtain ⟨w, hn, hended⟩ := hp
    rw [hcrashed hn rfl]
    exact ⟨rfl, .inr ⟨rfl, h.complete hn hended⟩⟩
  | kill =>
    obtain ⟨w, hn⟩ := h.up hallows
    rw [hcrashed hn rfl]
    rfl

/-- A process ends with status 1 only by a failed read. -/
theorem Inv.ne_one (h : Inv env x r) (hx : x.WellFormed) (hc : Crc.Composes env.crc32)
    (ha : Noisy env x r a) (hs : r.step env a = some (ms, r')) (hne : a ≠ .readError) :
    r'.main ≠ .exited 1 := by
  obtain ⟨hallows, hnode, hmain⟩ := step_eq_some.mp hs
  intro h1
  rw [h1] at hmain
  -- a handler that is not cut returns
  have hthrows (main : CfdpReceiver → MainState) (cut : Option Nat)
      (hm : .exited 1 = MainState.handled main cut r'.node) (hup : cut = none → ∃ w, r'.node = .up w)
      (hmain : ∀ rx, main rx ≠ .exited 1) : False := by
    cases hn' : r'.node with
    | up w =>
      rw [hn'] at hm
      exact hmain w.rx hm.symm
    | down disk log =>
      rw [hn'] at hm hup
      simp only [MainState.handled] at hm
      split at hm
      · next hcut =>
        obtain ⟨w, hw⟩ := hup hcut
        cases hw
      · cases hm
  cases a with
  | start garbage o cut =>
    refine hthrows (fun _ => .loop false) cut hmain (fun hcut => ?_) fun _ => nofun
    subst hcut
    cases hrn : r.node with
    | up w => rw [MainAction.node, hrn] at hnode; cases hnode
    | down disk log =>
      rw [MainAction.node, hrn] at hnode
      obtain ⟨ms', w, hboot, -⟩ := boots env disk log garbage o
      exact ⟨w, (Prod.mk.inj (Option.some.inj (hnode.symm.trans hboot))).2⟩
  | pdu raw o cut =>
    obtain ⟨w, hn⟩ := h.up hallows
    refine hthrows (fun rx => r.main.after rx.transferActive) cut hmain (fun hcut => ?_)
      fun rx => ?_
    · subst hcut
      have ha' : x.Noisy env r.node (.recv raw o none) := ha
      rw [hn] at ha'
      rw [MainAction.node, hn] at hnode
      obtain ⟨w', hw', -⟩ := (h.live hn).tolerates hx hc ha'.2 ha'.1
      obtain ⟨ms', hstep⟩ := World.receive_eq_some.mp hw'
      exact ⟨w', (Prod.mk.inj (Option.some.inj (hnode.symm.trans hstep))).2⟩
    · cases hm : r.main with
      | exited status => rw [hm] at hallows; cases hallows
      | stopped => exact nofun
      | linger => exact nofun
      | loop wasActive =>
        unfold MainState.after
        cases rx.transferActive <;> cases wasActive <;> exact nofun
  | readError => exact hne rfl
  | quiet => cases hmain
  | kill => cases hmain

theorem inv_stopped {n : Node} (hn : n.Fresh) (hd : x.Fits (n.disk.files (x.path env))) :
    Inv env x ⟨n, .stopped⟩ := by
  refine ⟨Transfer.stored_fresh hn hd, hn.ok, hn.durable, ?_⟩
  cases n with
  | up w => exact hn.elim
  | down disk log => rfl

theorem Inv.run (h : Inv env x r) (hx : x.WellFormed) (hc : Crc.Composes env.crc32)
    (hr : Run env (Noisy env x) r hist r') : Inv env x r' :=
  Machine.Run.inv hr (I := fun _ r => Inv env x r) h fun _ _ _ _ _ hi ha hs => hi.step hx hc ha hs

/-! ## A file of one byte -/

section

variable {x : Transfer}

/-- What becomes of an unused machine. -/
def sampleProcess (as : List MainAction) : Option (List Moment × Receiver) :=
  Machine.exec (step sampleEnv) ⟨unusedNode, .stopped⟩ as

def begin : MainAction := .start .blank noFaults none

def arrives (raw : Bytes) : MainAction := .pdu raw noFaults none

/-- A process is started and PDUs of the transfer arrive; what ends it does so at once. -/
def Peaceful (env : Env) (x : Transfer) : MainAction → Prop
  | .start _ o _ => o.Smooth
  | .pdu raw o _ => x.Emits env.crc32 raw ∧ o.Smooth
  | _ => True

theorem Peaceful.noisy {a : MainAction} (h : Peaceful sampleEnv x a) (hx : x.WellFormed) (r : Receiver) :
    Noisy sampleEnv x r a := by
  unfold Noisy
  cases a with
  | start garbage o cut => cases r.node <;> exact h
  | pdu raw o cut =>
    cases r.node with
    | up w => exact ⟨Transfer.tolerates_emits hx w.rx h.1, h.2⟩
    | down disk log => exact ⟨trivial, h.2⟩
  | readError => cases r.node <;> trivial
  | quiet => cases r.node <;> trivial
  | kill => cases r.node <;> trivial

theorem Peaceful.run {as : List MainAction} {q : List Moment × Receiver} (hx : x.WellFormed)
    (hq : sampleProcess as = some q) (h : ∀ a ∈ as, Peaceful sampleEnv x a) :
    Run sampleEnv (Noisy sampleEnv x) ⟨unusedNode, .stopped⟩ q.1 q.2 :=
  Machine.exec_run hq fun a ha r _ _ => (h a ha).noisy hx r

end

/-- **A process that returns 0 has done its work.** Whatever else is on the line, and however
many processes were killed or have failed before: the destination is the source file, and
there is no journal left. -/
theorem run_exits {n : Node} (hx : x.WellFormed) (hc : Crc.Composes env.crc32) (hn : n.Fresh)
    (hd : x.Fits (n.disk.files (x.path env))) (h : Run env (Noisy env x) ⟨n, .stopped⟩ hist r)
    (h0 : r.main = .exited 0) : Complete env x r.node.disk := by
  have hp := ((inv_stopped hn hd).run hx hc h).place
  rw [h0] at hp
  exact (hp.2.resolve_left Nat.zero_ne_one).2

/-- The process receives the file and is left in quiet. -/
theorem run_exits_small : ∃ hist r, Run sampleEnv (Noisy sampleEnv (Transfer.small [0x61]))
    ⟨unusedNode, .stopped⟩ hist r ∧ r.main = .exited 0 ∧
    Complete sampleEnv (Transfer.small [0x61]) r.node.disk := by
  have hx : (Transfer.small [0x61]).WellFormed := Transfer.wellFormed_small (by simp) (by simp)
  have hrun : (sampleProcess [begin, arrives ((Transfer.small [0x61]).metadataRaw sampleEnv.crc32),
      arrives ((Transfer.small [0x61]).packetRaw 0 0),
      arrives ((Transfer.small [0x61]).eofPdu sampleEnv.crc32), .quiet]).any
        (fun q => decide (q.2.main = .exited 0)) = true := by
    decide +kernel
  simp only [Option.any_eq_true, Prod.exists, decide_eq_true_eq] at hrun
  obtain ⟨hist, r, hr, hm⟩ := hrun
  have hok := Peaceful.run hx hr fun a ha => by
    simp only [List.mem_cons, List.not_mem_nil, or_false] at ha
    rcases ha with rfl | rfl | rfl | rfl | rfl
    · exact smooth_noFaults
    · exact ⟨Transfer.emits_metadataRaw (by decide +kernel), smooth_noFaults⟩
    · exact ⟨Transfer.emits_packetRaw (by decide +kernel), smooth_noFaults⟩
    · exact ⟨.eof, smooth_noFaults⟩
    · trivial
  exact ⟨hist, r, hok, hm, run_exits hx Crc.composes_zlibCrc32 unusedNode_fresh
    (fun g hg => by cases hg) hok hm⟩

/-! ## A process that waits forever -/

/-- The boot from the journal of a transfer that is complete. -/
theorem Ended.boot {disk : Disk} {log : List Event} {garbage s : JournalState} {o : Oracle} {w : World}
    (h : x.NodeInv env 0 (.down disk log)) (hx : x.WellFormed) (hc : Crc.Composes env.crc32)
    (ho : o.Smooth) (hdec : JournalState.decode disk.stateBin = some s)
    (hm : s.computeMissingChunks = []) (he : s.eofReceived = true)
    (hs : Node.step env (.down disk log) (.boot garbage o none) = some (ms, .up w)) :
    x.Ended w.rx ∧ w.sent = (Node.down disk log).sent ++ [x.finalAck] := by
  have hstored : x.Stored env 0 disk log := h
  have hne : disk.stateBin ≠ none := by
    intro hno
    rw [hno] at hdec
    cases hdec
  obtain ⟨s', ⟨hrec, hmarks⟩, -, hdec', hl⟩ :=
    hstored.journal.loads (w := ⟨.construct garbage, disk, log⟩) hne (ho .journalOpen)
  cases hdec.symm.trans hdec'
  simp only [Node.step, Option.map_eq_some_iff] at hs
  obtain ⟨⟨ws, n⟩, hf, hr⟩ := hs
  cases hr
  obtain ⟨⟨hrx, hsent⟩, hfiles⟩ := Node.finish_up (wp_and replies_onBoot keepsFiles_onBoot) hf
  rw [World.loaded, if_neg hne, hl] at hrx hsent
  have hidle := ((CfdpReceiver.replyBoot_loaded garbage s (verifyFileChecksum env o w)).1 ⟨hm, he⟩).2
  rw [← hrx] at hidle
  simp only [CfdpReceiver.replyBoot, if_pos (And.intro hm he)] at hrx hsent
  have hstate : w.rx.state = s := by
    rw [hrx, CfdpReceiver.complete_state]
    rfl
  have hver : verifyFileChecksum env o w = true := by
    have hrec' : x.Matches env w.rx.state := hstate ▸ hrec
    refine hrec'.verified hx hc ho ?_
    rw [hfiles]
    exact hmarks.file hstored.fits hrec hm
  rw [hver] at hrx hsent
  rw [hrx] at hidle ⊢
  refine ⟨(Transfer.complete_stays rfl hrec.tid).resolve_left ?_, hsent.trans ?_⟩
  · rw [hidle]
    exact Bool.false_ne_true
  · rw [Transfer.complete_acked rfl hrec.tid hidle]
    rfl

/-- What arrives is tolerated, no call fails, and the process is not started again. -/
def Steady (env : Env) (x : Transfer) (r : Receiver) (a : MainAction) : Prop :=
  Noisy env x r a ∧ ∀ garbage o cut, a ≠ .start garbage o cut

/-- In the first loop, `was_active` unset, after the end of the transfer: only another transfer
lets the process return 0. -/
def Waiting (x : Transfer) (r : Receiver) : Prop :=
  (r.main = .loop false ∧ ∃ w, r.node = .up w ∧ x.Ended w.rx) ∨ r.main = .stopped ∨
    r.main = .exited 1

theorem Waiting.step (h : Waiting x r) (hi : Inv env x r) (hx : x.WellFormed)
    (hc : Crc.Composes env.crc32) (ha : Steady env x r a) (hs : r.step env a = some (ms, r')) :
    Waiting x r' := by
  obtain ⟨hallows, hnode, hmain⟩ := step_eq_some.mp hs
  rcases h with ⟨hloop, w, hn, hended⟩ | hstop | hstop
  · cases a with
    | start garbage o cut => exact absurd rfl (ha.2 garbage o cut)
    | pdu raw o cut =>
      have ha' : x.Noisy env r.node (.recv raw o cut) := ha.1
      rw [hn] at ha'
      rw [MainAction.node, hn] at hnode
      cases hn' : r'.node with
      | down disk log =>
        rw [MainState.next, hn', MainState.handled] at hmain
        split at hmain
        · exact .inr (.inr hmain)
        · exact .inr (.inl hmain)
      | up w' =>
        rw [hn'] at hnode
        cases step_up_uncut hnode
        obtain ⟨y, hy, -, hrep⟩ := (hi.live hn).tolerates hx hc ha'.2 ha'.1
        cases hy.symm.trans (Node.next_eq_some.mpr ⟨ms, hnode⟩)
        have hrx : w'.rx = w.rx := by rw [hrep.1, hended.reply ha'.1]
        refine .inl ⟨?_, w', hn', by rw [hrx]; exact hended⟩
        rw [hmain, hloop, hn']
        simp only [MainState.next, MainState.handled, MainState.after]
        rw [hrx, hended.idle]
        rfl
    | readError => exact .inr (.inr hmain)
    | quiet =>
      rw [hloop] at hallows
      cases hallows
    | kill => exact .inr (.inl hmain)
  all_goals
    rw [hstop] at hallows
    cases a with
    | start garbage o cut => exact absurd rfl (ha.2 garbage o cut)
    | _ => cases hallows

theorem Waiting.run (h : Waiting x r) (hi : Inv env x r) (hx : x.WellFormed)
    (hc : Crc.Composes env.crc32) (hr : Run env (Steady env x) r hist r') : Waiting x r' :=
  (Machine.Run.inv hr (I := fun _ r => Waiting x r ∧ Inv env x r) ⟨h, hi⟩ fun _ _ _ _ _ h ha hs =>
    ⟨h.1.step h.2 hx hc ha hs, h.2.step hx hc ha.1 hs⟩).1

theorem Waiting.ne_zero (h : Waiting x r) : r.main ≠ .exited 0 := by
  rcases h with ⟨h, -⟩ | h | h <;> rw [h] <;> decide

theorem reaches_quiet {w : World} (hn : r.node = .up w) (hm : r.main = .linger) :
    Reaches (step env) (Steady env x) r fun r' => r'.main = .exited 0 := by
  have hs : r.step env .quiet = some ([], ⟨w.crashed, .exited 0⟩) :=
    step_eq_some.mpr ⟨by rw [hm]; rfl, by rw [hn]; rfl, rfl⟩
  have ha : Steady env x r .quiet := by
    refine ⟨?_, fun _ _ _ h => by cases h⟩
    show x.Noisy env r.node .crash
    rw [hn]
    trivial
  exact .move ha hs (.here rfl)

/-- The final ACK of an active transfer leads to the second loop. -/
theorem after_reply {w : World} {main : MainState} {rep : Reply} (raw : Bytes) (o : Oracle)
    (hl : x.Live env w) (hrep : rep = w.rx.reply env o true raw)
    (hm : main = .linger ∨ main = .loop true ∧ w.rx.transferActive = true) :
    main.after rep.1.transferActive = .linger ∨
      main = .loop true ∧ main.after rep.1.transferActive = .loop true ∧
        rep.1.transferActive = true ∧ x.finalAck ∉ rep.2 := by
  rcases hm with rfl | ⟨rfl, hact⟩
  · exact .inl rfl
  unfold MainState.after
  cases ha : rep.1.transferActive with
  | false => exact .inl rfl
  | true =>
    refine .inr ⟨rfl, rfl, rfl, fun hf => ?_⟩
    rw [hrep] at ha hf
    have hidle := CfdpReceiver.reply_final hl.ok hact hf
    rw [ha] at hidle
    cases hidle

/-- A PDU of the transfer arrives. -/
theorem step_pdu {d : Bytes × Oracle} {w w₁ : World} (hx : x.WellFormed) (hn : r.node = .up w)
    (hrun : r.main.running = true) (hd : x.Emits env.crc32 d.1 ∧ d.2.Smooth)
    (hw : w.receive env d = some w₁) :
    ∃ a ms, Steady env x r a ∧
      r.step env a = some (ms, ⟨.up w₁, r.main.after w₁.rx.transferActive⟩) := by
  obtain ⟨ms, hstep⟩ := World.receive_eq_some.mp hw
  refine ⟨.pdu d.1 d.2 none, ms, ⟨?_, fun _ _ _ h => by cases h⟩,
    step_eq_some.mpr ⟨hrun, by rw [hn]; exact hstep, rfl⟩⟩
  show x.Noisy env r.node (.recv d.1 d.2 none)
  rw [hn]
  exact ⟨Transfer.tolerates_emits hx w.rx hd.1, hd.2⟩

/-- PDUs of the transfer, one after the other, in a process that has seen it active. -/
theorem run_receiveAll {ds : List (Bytes × Oracle)} {w w' : World} (hl : x.Live env w)
    (hx : x.WellFormed) (hc : Crc.Composes env.crc32) (hn : r.node = .up w)
    (hm : r.main = .linger ∨ r.main = .loop true ∧ w.rx.transferActive = true)
    (hd : ∀ d ∈ ds, x.Emits env.crc32 d.1 ∧ d.2.Smooth) (hw : w.receiveAll env ds = some w') :
    ∃ hist r' out, Run env (Steady env x) r hist r' ∧ r'.node = .up w' ∧
      w'.sent = w.sent ++ out ∧ (r'.main = .linger ∨ r.main = .loop true ∧ x.finalAck ∉ out) := by
  induction ds generalizing r w with
  | nil =>
    cases hw
    refine ⟨[], r, [], .start, hn, (List.append_nil _).symm, ?_⟩
    exact hm.imp_right fun h => ⟨h.1, List.not_mem_nil⟩
  | cons d ds ih =>
    rw [World.receiveAll_cons] at hw
    obtain ⟨w₁, hw₁, hw⟩ := Option.bind_eq_some_iff.mp hw
    have hd₁ := hd d List.mem_cons_self
    obtain ⟨y, hy, hl₁, hrx, hsent⟩ := hl.receives hx hc hd₁.2 hd₁.1
    cases hw₁.symm.trans hy
    have hrun : r.main.running = true := by
      rcases hm with hm | ⟨hm, -⟩ <;> rw [hm] <;> rfl
    obtain ⟨a, ms, ha, hs⟩ := step_pdu hx hn hrun hd₁ hw₁
    have hmain := after_reply d.1 d.2 hl rfl hm
    rw [← hrx] at hmain
    obtain ⟨hist, r', out, hrun, hn', hout, hfin⟩ :=
      ih (r := ⟨.up w₁, r.main.after w₁.rx.transferActive⟩) hl₁ rfl
        (hmain.imp_right fun h => ⟨h.2.1, h.2.2.1⟩)
        (fun e he => hd e (List.mem_cons_of_mem d he)) hw
    refine ⟨ms ++ hist, r', (w.rx.reply env d.2 true d.1).2 ++ out,
      (Machine.Run.start.step ha hs).trans hrun, hn', by rw [hout, hsent, List.append_assoc], ?_⟩
    refine hfin.imp_right fun hout => ?_
    rcases hmain with hlinger | ⟨hloop, -, -, hno⟩
    · cases hlinger.symm.trans hout.1
    · exact ⟨hloop, fun hf => (List.mem_append.mp hf).elim hno hout.2⟩

theorem emits_remaining {N : UInt32} {raw : Bytes} (h : raw ∈ x.remaining env.crc32 N) :
    x.Emits env.crc32 raw := by
  unfold Transfer.remaining at h
  split at h
  · rw [List.mem_singleton.mp h]
    exact .eof
  · obtain ⟨ci, -, hraw⟩ := List.mem_flatMap.mp h
    exact Transfer.reacts_sendChunk ci raw hraw

/-- A session without losses leads a process to the end of its work. -/
theorem reaches_session {w : World} (hl : x.Live env w) (hx : x.WellFormed)
    (hc : Crc.Composes env.crc32) (hn : r.node = .up w) (hrun : r.main.running = true)
    (hloop : r.main ≠ .linger) (hs : w.rx.transferActive = true ∨ w.rx.lastAckedId ≠ x.tid) :
    Reaches (step env) (Steady env x) r fun r' => r'.main = .exited 0 := by
  obtain ⟨w₁, hw₁, hl₁, hsent₁, ha₁⟩ := hl.opens hx hc smooth_noFaults hs
  obtain ⟨w₀, N, hw₀, hsent₀, w', out, hw', hsent', hf, -⟩ := hl.session hx hc smooth_noFaults hs
  rw [World.receiveAll_cons, hw₁, Option.bind_some] at hw₀
  -- the Metadata
  obtain ⟨a, ms, ha, hstep⟩ := step_pdu (d := (_, _)) hx hn hrun
    ⟨.metadata (hx.metadataPdu env), smooth_noFaults⟩ hw₁
  have hmain : r.main.after w₁.rx.transferActive = .loop true := by
    rw [ha₁]
    cases hm : r.main with
    | loop wasActive => rfl
    | linger => exact absurd hm hloop
    | stopped => rw [hm] at hrun; cases hrun
    | exited status => rw [hm] at hrun; cases hrun
  -- the other PDUs
  have hall : w₁.receiveAll env ((x.queryPdu, noFaults) ::
      (x.remaining env.crc32 N).map fun raw => (raw, noFaults)) = some w' := by
    rw [← List.singleton_append, World.receiveAll_append, hw₀, Option.bind_some, hw']
  have hemits : ∀ d ∈ (x.queryPdu, noFaults) :: (x.remaining env.crc32 N).map (fun raw => (raw, noFaults)),
      x.Emits env.crc32 d.1 ∧ d.2.Smooth := by
    intro d hd
    rcases List.mem_cons.mp hd with rfl | hd
    · exact ⟨.query, smooth_noFaults⟩
    · obtain ⟨raw, hraw, rfl⟩ := List.mem_map.mp hd
      exact ⟨emits_remaining hraw, smooth_noFaults⟩
  obtain ⟨hist, r', out', hr, hn', hout', hfin⟩ :=
    run_receiveAll (r := ⟨.up w₁, .loop true⟩) hl₁ hx hc rfl (.inr ⟨rfl, ha₁⟩) hemits hall
  have heq : w₁.sent ++ out' = w₁.sent ++ (ResumeInfoPdu.raw ⟨x.tid, N⟩ :: out) := by
    rw [← hout', hsent', hsent₀, hsent₁, List.append_assoc, List.singleton_append]
  have hmem : x.finalAck ∈ out' := by
    rw [List.append_cancel_left heq]
    exact List.mem_cons_of_mem _ hf
  refine Reaches.move ha hstep ?_
  rw [hmain]
  exact Reaches.after hr (reaches_quiet hn' (hfin.resolve_right fun h => h.2 hmem))

/-- A process that does not wait yet can finish its work and return 0. -/
theorem reaches_exit {w : World} (hi : Inv env x r) (hx : x.WellFormed)
    (hc : Crc.Composes env.crc32) (hn : r.node = .up w) (h : ¬ (r.main = .loop false ∧ x.Ended w.rx)) :
    Reaches (step env) (Steady env x) r fun r' => r'.main = .exited 0 := by
  have hp := hi.place
  cases hm : r.main with
  | stopped =>
    rw [hm, hn] at hp
    cases hp
  | exited status =>
    rw [hm, hn] at hp
    cases hp.1
  | linger => exact reaches_quiet hn hm
  | loop wasActive =>
    rw [hm, hn] at hp
    obtain ⟨v, hv, hact⟩ := hp
    cases hv
    have hl := hi.live hn
    have hs : w.rx.transferActive = true ∨ w.rx.lastAckedId ≠ x.tid := by
      by_contra hno
      obtain ⟨hidle, hid⟩ := not_or.mp hno
      refine h ⟨?_, by simpa using hidle, not_not.mp hid⟩
      cases wasActive with
      | true => exact absurd (hact rfl) hidle
      | false => exact hm
    exact reaches_session hl hx hc hn (by rw [hm]; rfl) (by rw [hm]; exact nofun) hs

/-- **Which processes can return 0**: all that run, but the one that is in the first loop with
`was_active` unset when the transfer has ended. -/
theorem run_exits_iff {n : Node} {w : World} (hx : x.WellFormed) (hc : Crc.Composes env.crc32)
    (hn : n.Fresh) (hd : x.Fits (n.disk.files (x.path env)))
    (h : Run env (Noisy env x) ⟨n, .stopped⟩ hist r) (hr : r.node = .up w) :
    (Reaches (step env) (Steady env x) r fun r' => r'.main = .exited 0) ↔
      ¬ (r.main = .loop false ∧ x.Ended w.rx) := by
  have hi := (inv_stopped hn hd).run hx hc h
  refine ⟨?_, reaches_exit hi hx hc hr⟩
  rintro ⟨hist, r', hrun, h0⟩ ⟨hloop, hended⟩
  have hw : Waiting x r := .inl ⟨hloop, w, hr, hended⟩
  exact (hw.run hi hx hc hrun).ne_zero h0

/-- Killed after half of the first chunk, a process that goes on. -/
def restarted : List MainAction :=
  [begin, arrives (Transfer.five.metadataRaw sampleEnv.crc32), arrives (Transfer.five.packetRaw 0 1), .kill,
    begin, arrives (Transfer.five.packetRaw 1 0)]

/-- Killed when the journal holds all chunks and the Eof. -/
def leftComplete : List MainAction :=
  [begin, arrives (Transfer.five.metadataRaw sampleEnv.crc32), arrives (Transfer.five.packetRaw 1 0),
    arrives (Transfer.five.packetRaw 0 1), arrives (Transfer.five.packetRaw 0 0),
    .pdu (Transfer.five.eofPdu sampleEnv.crc32) noFaults (some 804)]

theorem peaceful_five {a : MainAction} (h : a ∈ restarted ∨ a ∈ leftComplete ++ [begin]) :
    Peaceful sampleEnv Transfer.five a := by
  have hmeta : Peaceful sampleEnv Transfer.five (arrives (Transfer.five.metadataRaw sampleEnv.crc32)) :=
    ⟨Transfer.emits_metadataRaw (by decide +kernel), smooth_noFaults⟩
  have hpacket (ci pi : Nat) (h : (Transfer.five.packet ci pi).isSome = true) :
      Peaceful sampleEnv Transfer.five (arrives (Transfer.five.packetRaw ci pi)) :=
    ⟨Transfer.emits_packetRaw h, smooth_noFaults⟩
  simp only [restarted, leftComplete, List.cons_append, List.nil_append, List.mem_cons, List.not_mem_nil,
    or_false] at h
  rcases h with (rfl | rfl | rfl | rfl | rfl | rfl) | (rfl | rfl | rfl | rfl | rfl | rfl | rfl)
  · exact smooth_noFaults
  · exact hmeta
  · exact hpacket 0 1 (by decide +kernel)
  · trivial
  · exact smooth_noFaults
  · exact hpacket 1 0 (by decide +kernel)
  · exact smooth_noFaults
  · exact hmeta
  · exact hpacket 1 0 (by decide +kernel)
  · exact hpacket 0 1 (by decide +kernel)
  · exact hpacket 0 0 (by decide +kernel)
  · exact ⟨.eof, smooth_noFaults⟩
  · exact smooth_noFaults

/-- A process in the middle of a transfer can return 0, one that was started when all had arrived
cannot. -/
theorem run_exits_iff_small :
    (∃ hist r, Run sampleEnv (Noisy sampleEnv Transfer.five) ⟨unusedNode, .stopped⟩ hist r ∧
      r.main = .loop true ∧ Reaches (step sampleEnv) (Steady sampleEnv Transfer.five) r
        fun r' => r'.main = .exited 0) ∧
    ∃ hist r, Run sampleEnv (Noisy sampleEnv Transfer.five) ⟨unusedNode, .stopped⟩ hist r ∧
      r.main = .loop false ∧ ¬ Reaches (step sampleEnv) (Steady sampleEnv Transfer.five) r
        fun r' => r'.main = .exited 0 := by
  constructor
  · have hrun : (sampleProcess restarted).any
        (fun q => decide (q.2.main = .loop true) && q.2.node.world?.isSome) = true := by
      decide +kernel
    simp only [Option.any_eq_true, Prod.exists, Bool.and_eq_true, decide_eq_true_eq,
      Option.isSome_iff_exists, Node.world?_eq_some] at hrun
    obtain ⟨hist, r, hr, hm, w, hw⟩ := hrun
    have hok := Peaceful.run Transfer.wellFormed_five hr fun a ha => peaceful_five (.inl ha)
    refine ⟨hist, r, hok, hm, (run_exits_iff Transfer.wellFormed_five Crc.composes_zlibCrc32
      unusedNode_fresh (fun g hg => by cases hg) hok hw).mpr fun h => ?_⟩
    cases hm.symm.trans h.1
  · have hrun : (sampleProcess (leftComplete ++ [begin])).any (fun q =>
        decide (q.2.main = .loop false) && q.2.node.world?.any fun w =>
          !w.rx.transferActive && w.rx.lastAckedId == 1) = true := by
      decide +kernel
    simp only [Option.any_eq_true, Prod.exists, Bool.and_eq_true, decide_eq_true_eq,
      Node.world?_eq_some, Bool.not_eq_true', beq_iff_eq] at hrun
    obtain ⟨hist, r, hr, hm, w, hw, hidle, hacked⟩ := hrun
    have hok := Peaceful.run Transfer.wellFormed_five hr fun a ha => peaceful_five (.inr ha)
    exact ⟨hist, r, hok, hm, fun h => (run_exits_iff Transfer.wellFormed_five Crc.composes_zlibCrc32
      unusedNode_fresh (fun g hg => by cases hg) hok hw).mp h ⟨hm, hidle, hacked⟩⟩

/-- **A process that finds at boot that all has arrived never returns 0**, whatever tolerated PDUs
arrive. It sends the final ACK, and nothing else, and removes the journal, but `was_active` stays
unset. -/
theorem run_stuck {n : Node} {s : JournalState} {garbage : JournalState} {o : Oracle}
    (hx : x.WellFormed) (hc : Crc.Composes env.crc32) (hn : n.Fresh)
    (hd : x.Fits (n.disk.files (x.path env))) (h : Run env (Noisy env x) ⟨n, .stopped⟩ hist r)
    (hdec : JournalState.decode r.node.disk.stateBin = some s) (hm : s.computeMissingChunks = [])
    (he : s.eofReceived = true) (ho : o.Smooth)
    (hs : r.step env (.start garbage o none) = some (ms, r₁))
    (h' : Run env (Steady env x) r₁ hist' r₂) :
    r₁.node.sent = r.node.sent ++ [x.finalAck] ∧ Complete env x r₁.node.disk ∧
      r₂.main ≠ .exited 0 := by
  have hi := (inv_stopped hn hd).run hx hc h
  obtain ⟨hallows, hnode, hmain⟩ := step_eq_some.mp hs
  have ha : Noisy env x r (.start garbage o none) := by
    show x.Noisy env r.node (.boot garbage o none)
    cases r.node <;> exact ho
  have hi₁ := hi.step hx hc ha hs
  cases hrn : r.node with
  | up w =>
    rw [MainAction.node, hrn] at hnode
    cases hnode
  | down disk log =>
    have hheld := hi.held
    rw [hrn] at hheld hdec
    rw [MainAction.node, hrn] at hnode
    obtain ⟨ms', w, hboot, -⟩ := boots env disk log garbage o
    have hw : r₁.node = .up w := (Prod.mk.inj (Option.some.inj (hnode.symm.trans hboot))).2
    rw [hw] at hnode
    obtain ⟨hended, hsent⟩ := Ended.boot hheld hx hc ho hdec hm he hnode
    have hwait : Waiting x r₁ := by
      refine .inl ⟨?_, w, hw, hended⟩
      rw [hmain, hw]
      rfl
    refine ⟨?_, ?_, (hwait.run hi₁ hx hc h').ne_zero⟩
    · rw [hw]
      exact hsent
    · rw [hw]
      exact hi₁.complete hw hended

/-- The process is killed when the journal holds all chunks and the Eof, and started again. -/
theorem run_stuck_small : ∃ hist r ms r₁, Run sampleEnv (Noisy sampleEnv Transfer.five)
    ⟨unusedNode, .stopped⟩ hist r ∧ r.step sampleEnv begin = some (ms, r₁) ∧
    r₁.node.sent = r.node.sent ++ [Transfer.five.finalAck] ∧
    Complete sampleEnv Transfer.five r₁.node.disk ∧
    ∀ hist' r₂, Run sampleEnv (Steady sampleEnv Transfer.five) r₁ hist' r₂ → r₂.main ≠ .exited 0 := by
  have hrun : (sampleProcess leftComplete).any
      (fun q => (JournalState.decode q.2.node.disk.stateBin).any (fun s =>
        s.computeMissingChunks.isEmpty && s.eofReceived) && (q.2.step sampleEnv begin).isSome) =
      true := by
    decide +kernel
  simp only [Option.any_eq_true, Prod.exists, Bool.and_eq_true, List.isEmpty_iff,
    Option.isSome_iff_exists] at hrun
  obtain ⟨hist, r, hr, ⟨s, hdec, hm, he⟩, ms, r₁, hs⟩ := hrun
  have hok := Peaceful.run Transfer.wellFormed_five hr fun a ha =>
    peaceful_five (.inr (List.mem_append_left _ ha))
  have hstuck {hist' : List Moment} {r₂ : Receiver}
      (h' : Run sampleEnv (Steady sampleEnv Transfer.five) r₁ hist' r₂) :=
    run_stuck Transfer.wellFormed_five Crc.composes_zlibCrc32 unusedNode_fresh (fun g hg => by cases hg)
      hok hdec hm he smooth_noFaults hs h'
  exact ⟨hist, r, ms, r₁, hok, hs, (hstuck .start).1, (hstuck .start).2.1,
    fun hist' r₂ h' => (hstuck h').2.2⟩

end Receiver

end Cfdp
