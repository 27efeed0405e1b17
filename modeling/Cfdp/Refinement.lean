import Cfdp.Stack

/-!
# The byte streams refine the two models above them

A stack that corrupts nothing does what `System` can do, where the PDUs of a line may arrive in
any order and number (`run_refines`): all that holds of every run of `System` holds of the
programs on their byte streams.
-/

namespace Cfdp

open Crash Prog Machine LittleEndian ByteStream

namespace Stack

variable {env : Env} {x : Transfer} {s s' : Stack} {t : System} {a : StackAction} {ms hist : List Moment}

/-- The line stays up and corrupts nothing, and no call of the receiver fails. -/
def Lossy : StackAction → Prop
  | .send sends | .timeout sends | .answer sends | .drained sends => ∀ q ∈ sends, q.1.corrupted = false
  | .read => True
  | .receive o _ => o.Smooth
  | .process a => a ≠ .readError ∧ a.node.Within (fun _ => True) Oracle.Smooth

theorem Lossy.tame (h : Lossy a) : Tame env x a := by
  have hspares {sends : List (Transport.Dice × Bytes)} (h : ∀ q ∈ sends, q.1.corrupted = false) :
      ∀ q ∈ sends, x.Spares env q.1 q.2 := by
    intro q hq hc
    rw [h q hq] at hc
    cases hc
  cases a with
  | send sends => exact hspares h
  | timeout sends => exact hspares h
  | answer sends => exact hspares h
  | read => trivial
  | drained sends => exact hspares h
  | receive o cut => exact h
  | process a => exact h

/-- What `t` keeps of `s`: the node, where the session waits, and that all frames of the sender are
of PDUs on its line. -/
structure Abstracts (x : Transfer) (s : Stack) (t : System) : Prop where
  node : t.node = s.receiver.node
  transfer : t.transfer = x
  phase : ∀ u, s.session = some u → t.phase = u.phase
  up : Carries (· ∈ t.line) s.up

theorem Abstracts.react {r : Reaction} {sends : List (Transport.Dice × Bytes)} (h : Abstracts x s t)
    (hx : x.WellFormed) (hr : x.Reacts env.crc32 r) (hd : ∀ q ∈ sends, q.1.corrupted = false)
    (hs : s.react r sends = some (ms, s')) : ms = [] ∧ Abstracts x s' (t.react r) := by
  obtain ⟨hsends, rfl, up, raws, rfl, hpending, hraws⟩ := react_eq hx hr hs
  have hline : Carries (· ∈ t.line ++ r.1) s.up := h.up.mono fun pdu hpdu => List.mem_append_left _ hpdu
  refine ⟨rfl, h.node, h.transfer, fun u hu => ?_, hline.append hpending fun raw hraw => ?_⟩
  · cases hu
    rfl
  · obtain ⟨hlen, q, hq, -, hw⟩ := hraws raw hraw
    refine ⟨hlen, ?_⟩
    rcases hw.eq with ⟨-, rfl⟩ | ⟨hc, -, -⟩
    · rw [← hsends]
      exact List.mem_append_right _ (List.mem_map_of_mem hq)
    · rw [hd q hq] at hc
      cases hc

/-- A step of the process is one of the node. -/
theorem Abstracts.main {a : MainAction} (h : Abstracts x s t) (hline : ∀ raw ∈ a.node.raw?, raw ∈ t.line)
    (hw : a.node.Within (fun _ => True) Oracle.Smooth) (hs : s.main env a = some (ms, s')) :
    ∃ t', System.Run env (System.Retries x) t ms t' ∧ Abstracts x s' t' := by
  obtain ⟨⟨ms', r'⟩, hr, hq⟩ := Option.map_eq_some_iff.mp hs
  cases hq
  obtain ⟨-, hnode, -⟩ := Receiver.step_eq_some.mp hr
  have hstep : t.step env (.receiver a.node) = some (ms', { t with node := r'.node }) := by
    simp only [System.step]
    rw [if_pos hline, h.node, hnode]
    rfl
  have hok : System.Retries x t (.receiver a.node) := ⟨hw, fun y hy => by cases hy⟩
  refine ⟨{ t with node := r'.node }, ?_, rfl, h.transfer, h.phase, h.up⟩
  exact Machine.Run.start.step hok hstep

/-- Reading changes the way down and the batch. -/
theorem Abstracts.read {phase : Phase} {batch : List Bytes} (h : Abstracts x s t)
    (hu : s.session = some ⟨phase, batch⟩) (down : ByteStream) (pdu : Bytes) :
    Abstracts x { s with down, session := some ⟨phase, batch ++ [pdu]⟩ } t := by
  have hphase : t.phase = phase := h.phase _ hu
  refine ⟨h.node, h.transfer, fun u hu' => ?_, h.up⟩
  cases hu'
  exact hphase

/-- A batch the sender has read. -/
theorem Abstracts.batch {phase : Phase} {batch pdus : List Bytes} {sends : List (Transport.Dice × Bytes)}
    (h : Abstracts x s t) (hx : x.WellFormed) (hu : s.session = some ⟨phase, batch⟩)
    (hr : phase.Reads pdus) (hsent : ∀ pdu ∈ pdus, pdu ∈ s.receiver.node.sent)
    (hd : ∀ q ∈ sends, q.1.corrupted = false)
    (hs : s.react (x.onBatch env.crc32 phase pdus) sends = some (ms, s')) :
    ∃ t', System.Run env (System.Retries x) t ms t' ∧ Abstracts x s' t' := by
  obtain ⟨rfl, h'⟩ := h.react hx (Transfer.reacts_onBatch phase pdus) hd hs
  have hphase : t.phase = phase := h.phase _ hu
  have hstep : t.step env (.batch pdus) = some ([], t.react (x.onBatch env.crc32 phase pdus)) := by
    simp only [System.step]
    rw [if_pos ⟨by rw [hphase]; exact hr, by rw [h.node]; exact hsent⟩, h.transfer, hphase]
  have hok : System.Retries x t (.batch pdus) := ⟨trivial, fun y hy => by cases hy⟩
  exact ⟨_, Machine.Run.start.step hok hstep, h'⟩

theorem Abstracts.step (h : Abstracts x s t) (hi : Inv env x s) (hx : x.WellFormed)
    (htid : x.tid = 1) (ha : Lossy a) (hs : s.step env x a = some (ms, s')) :
    ∃ t', System.Run env (System.Retries x) t ms t' ∧ Abstracts x s' t' := by
  cases a with
  | send sends =>
    -- the abstract session begins as well
    let t₁ : System := { t with
      transfer := x, since := if x = t.transfer then t.since else t.node.log.length }
    have h₁ : Abstracts x s t₁ := ⟨h.node, rfl, h.phase, h.up⟩
    obtain ⟨rfl, h'⟩ := h₁.react hx Transfer.reacts_send ha hs
    have hstep : t.step env (.start x) = some ([], t₁.react (x.send env.crc32)) := rfl
    have hok : System.Retries x t (.start x) := ⟨htid, fun y hy => (Move.start.inj hy).symm⟩
    exact ⟨_, Machine.Run.start.step hok hstep, h'⟩
  | timeout sends =>
    simp only [Stack.step] at hs
    split at hs
    · next phase hu =>
      obtain ⟨rfl, h'⟩ := h.react hx (Transfer.reacts_onTimeout phase) ha hs
      have hstep : t.step env .timeout = some ([], t.react (x.onTimeout env.crc32 phase)) := by
        rw [System.step, h.transfer, h.phase _ hu]
      have hok : System.Retries x t .timeout := ⟨trivial, fun y hy => by cases hy⟩
      exact ⟨_, Machine.Run.start.step hok hstep, h'⟩
    · cases hs
  | answer sends =>
    simp only [Stack.step] at hs
    split at hs
    · next attempt batch hu =>
      obtain ⟨pdu, down, hpdu, -, hs⟩ := hi.recv hs
      have h' : Abstracts x { s with down } t := ⟨h.node, h.transfer, h.phase, h.up⟩
      exact h'.batch hx hu List.length_singleton (List.forall_mem_singleton.mpr hpdu) ha hs
    · cases hs
  | read =>
    -- the abstract sender reads a batch at once
    simp only [Stack.step] at hs
    split at hs
    · next hu =>
      obtain ⟨pdu, down, -, -, hs⟩ := hi.recv hs
      cases hs
      exact ⟨t, .start, h.read hu down pdu⟩
    · next hu =>
      obtain ⟨pdu, down, -, -, hs⟩ := hi.recv hs
      cases hs
      exact ⟨t, .start, h.read hu down pdu⟩
    · cases hs
  | drained sends =>
    simp only [Stack.step] at hs
    split at hs
    · next phase batch hu =>
      split at hs
      · next hr => exact h.batch hx hu hr (hi.session _ hu).batch ha hs
      · cases hs
    · cases hs
  | receive o cut =>
    simp only [Stack.step] at hs
    split at hs
    · cases hs
    next hne =>
      obtain ⟨raw, up, hrecv, hline, hup⟩ := h.up.recv (fun pdu hlen => UartTransport.reads_recv hlen) hne
      rw [hrecv] at hs
      have h' : Abstracts x { s with up } t := ⟨h.node, h.transfer, h.phase, hup⟩
      refine h'.main (a := .pdu raw o cut) (fun raw' hraw => ?_) ⟨trivial, ha⟩ hs
      cases hraw
      exact hline
  | process a =>
    cases a with
    | pdu raw o cut => cases hs
    | start garbage o cut => exact h.main (fun raw hraw => by cases hraw) ha.2 hs
    | readError => exact absurd rfl ha.1
    | quiet => exact h.main (fun raw hraw => by cases hraw) ha.2 hs
    | kill => exact h.main (fun raw hraw => by cases hraw) ha.2 hs

theorem abstracts_first (env : Env) (x : Transfer) (n : Node) (up down : Nat → Nat) :
    Abstracts x (first n up down) (System.first env n x) :=
  ⟨rfl, rfl, nofun, [], rfl, nofun⟩

/-- **The byte streams refine the system of PDUs.** In every run on a line that stays up, loses what it
likes and splits the bytes as it likes, but corrupts nothing, node and session go through what they go
through in some run of `System`, moment by moment. -/
theorem run_refines {n : Node} {up down : Nat → Nat} (hx : x.WellFormed)
    (hc : Crc.Composes env.crc32) (hcs : x.chunkSize ≤ 2 ^ 29) (htid : x.tid = 1) (hn : n.Fresh)
    (hd : x.Fits (n.disk.files (x.path env))) (h : Run env x Lossy (first n up down) hist s) :
    ∃ t, System.Run env (System.Retries x) (System.first env n x) hist t ∧
      t.node = s.receiver.node ∧ ∀ u, s.session = some u → t.phase = u.phase := by
  obtain ⟨t, ht, -, habs⟩ := h.simulate (R := fun s t => Inv env x s ∧ Abstracts x s t)
    ⟨inv_idle hn hd up down, abstracts_first env x n up down⟩ fun s t a ms s' hr ha hs => by
      obtain ⟨t', ht', h'⟩ := hr.2.step hr.1 hx htid ha hs
      exact ⟨t', ht', hr.1.step hx hc hcs ha.tame hs, h'⟩
  exact ⟨t, ht, habs.node, habs.phase⟩

/-- The first query is lost, and the ACK of the chunk arrives when the session is in its last loop. -/
def lossySession : List StackAction :=
  let x := Transfer.small [0x61]
  let lost : Transport.Dice := ⟨true, false, 0⟩
  [.process Receiver.begin,
    .send [(intact, x.metadataRaw sampleEnv.crc32), (lost, x.queryPdu)],
    .receive noFaults none,
    .timeout [(intact, x.queryPdu)], .receive noFaults none,
    .answer [(intact, x.packetRaw 0 0), (intact, x.eofPdu sampleEnv.crc32)],
    .receive noFaults none, .receive noFaults none,
    .read, .read, .drained [], .process .quiet]

/-- `System` can return with the destination file that the lossy line leaves. -/
theorem run_refines_small : ∃ hist t, System.Run sampleEnv (System.Retries (Transfer.small [0x61]))
    (System.first sampleEnv unusedNode (Transfer.small [0x61])) hist t ∧ t.phase = .returned ∧
    t.node.disk.files ((Transfer.small [0x61]).path sampleEnv) = some [0x61] := by
  have hrun : (Machine.exec (step sampleEnv (Transfer.small [0x61]))
      (first unusedNode (fun _ => 1) (fun _ => 3)) lossySession).any (fun r =>
        decide (r.2.receiver.node.disk.files ((Transfer.small [0x61]).path sampleEnv) = some [0x61]) &&
          r.2.session.any fun u => decide (u.phase = .returned)) = true := by
    decide +kernel
  simp only [Option.any_eq_true, Prod.exists, Bool.and_eq_true, decide_eq_true_eq] at hrun
  obtain ⟨hist, s, hr, hfile, ⟨phase, batch⟩, hu, rfl⟩ := hrun
  have hlossy : ∀ a ∈ lossySession, Lossy a := by
    intro a ha
    simp only [lossySession, List.mem_cons, List.not_mem_nil, or_false] at ha
    rcases ha with rfl | rfl | rfl | rfl | rfl | rfl | rfl | rfl | rfl | rfl | rfl | rfl
    all_goals simp [Lossy, intact, smooth_noFaults, Receiver.begin, MainAction.node, Action.Within]
  have hok : Run sampleEnv (Transfer.small [0x61]) Lossy
      (first unusedNode (fun _ => 1) (fun _ => 3)) hist s :=
    Machine.exec_run hr fun a ha _ _ _ => hlossy a ha
  obtain ⟨t, ht, hnode, hphase⟩ := run_refines (Transfer.wellFormed_small (by simp) (by simp))
    Crc.composes_zlibCrc32 (by decide : 1 ≤ 2 ^ 29) rfl unusedNode_fresh (fun g hg => by cases hg) hok
  exact ⟨hist, t, ht, hphase _ hu, by rw [hnode, hfile]⟩

end Stack

end Cfdp
